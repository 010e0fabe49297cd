import ActQuant.KvCache.PrepareSpec
import ActQuant.Lib.Lists

namespace ActQuant.KvCache.Cache
open ActQuant.Lib ActQuant.Batch

/-! What a decode leaves of the ubatch whose graph failed, without a window. -/

/-- The cells after the tokens were put into their places. -/
def fill (xs : List ((Nat × Nat) × Token)) (f : Nat × Nat → Cell) : Nat × Nat → Cell :=
  xs.foldl (fun f x => Function.update f x.1 ((f x.1).placed x.2)) f

theorem placeAll_fill {xs : List ((Nat × Nat) × Token)} {st st' : Cache × (Nat → Int)}
    (h : xs.foldlM placeToken st = some st') : st'.1.at' = fill xs st.1.at' := by
  induction xs generalizing st with
  | nil =>
    cases h
    rfl
  | cons x xs ih =>
    obtain ⟨u, hu, hrest⟩ := foldlM_cons_eq_some.1 h
    rw [ih hrest, (placeToken_spec hu).cell]
    rfl

/-- A slot of empty cells. -/
structure Vacant (k : Cache) (r : SlotInfo) (u : Ubatch) : Prop where
  length : u.nTokens = r.places.length
  nodup : r.places.Nodup
  pos : ∀ y ∈ r.places, (k.at' y).pos = -1
  bound : ∀ y ∈ r.places, y.2 < (k.cells y.1).size

theorem SlotFound.vacant {p : Params} {k : Cache} (hp : p.swaType = .none)
    (h : SlotFound p k u r) : Vacant k r u :=
  ⟨h.length, h.nodup, fun y hy => (canUse_no_window hp).1 (h.usable y hy).2,
    fun y hy => (h.usable y hy).1⟩

/-- Nothing is overwritten where all cells are empty. -/
theorem raise_empty {xs : List ((Nat × Nat) × Token)} {f : Nat × Nat → Cell} {m : Nat → Int}
    (h : ∀ x ∈ xs, (f x.1).pos = -1) : xs.foldl (fun m x => raise m (f x.1)) m = m := by
  induction xs with
  | nil => rfl
  | cons x xs ih =>
    rw [List.foldl_cons, raise, if_pos (Cell.isEmpty_eq.2 (h x List.mem_cons_self))]
    exact ih fun y hy => h y (List.mem_cons_of_mem _ hy)

theorem purges_none {k k' : Cache} {ss : List Nat}
    (h : ss.foldlM (purge p fun _ => -1) k = some k') : k' = k := by
  refine sweep_invariant (I := fun e : Cache => e = k) ?_ rfl h
  intro e s e' _ hI h
  rw [purge, if_pos rfl] at h
  cases h
  exact hI

/-- An ubatch in empty cells changes those cells only. -/
theorem Vacant.applied {p : Params} {k : Cache} (hv : Vacant k r u)
    (h : k.applyUbatch p r u = some k') : k'.at' = fill (r.places.zip u.tokens) k.at' := by
  obtain ⟨k₁, m, k₂, h₁, h₂, h₃⟩ := applyUbatch_eq_some.1 h
  rw [placeTokens, Option.ite_none_right_eq_some] at h₁
  have hall := placeAll_spec (zip_nodup hv.length hv.nodup) h₁.2
  have hm : m = fun _ => -1 := by
    rw [hall.raised]
    exact raise_empty fun x hx => hv.pos _ (mem_of_zip hx).1
  subst hm
  have hk₂ := purges_none h₂
  have hcells := (moveHeads_cells h₃).1
  have hsame : k'.at' = k₂.at' := by
    funext y
    rw [at', at', hcells]
  rw [hsame, hk₂, placeAll_fill h₁.2]

theorem fill_other {xs : List ((Nat × Nat) × Token)} {f : Nat × Nat → Cell}
    (h : ∀ x ∈ xs, x.1 ≠ y) : fill xs f y = f y :=
  foldl_update_other (g := Cell.placed) h

theorem fill_place {xs : List ((Nat × Nat) × Token)} {f : Nat × Nat → Cell}
    (hnd : (xs.map Prod.fst).Nodup) (hx : x ∈ xs) : fill xs f x.1 = (f x.1).placed x.2 :=
  foldl_update_place (g := Cell.placed) hnd hx

/-- Without a window every turn of a trial leaves the other cells as they were. -/
theorem Trial.spared {p : Params} {us : List Ubatch} (hp : p.swaType = .none)
    (h : Trial p k us ts kn) (y : Nat × Nat) : Spared y ts := by
  induction h with
  | done => trivial
  | full _ => trivial
  | @turn k u r k₁ us ts kn hfound happly htrial ih =>
    by_cases hy : y ∈ r.places
    · exact .inl hy
    · have hv := (findSlot_spec (findSlot_tokens hfound) hfound).vacant hp
      refine .inr ⟨?_, ih⟩
      rw [hv.applied happly]
      refine fill_other fun x hx he => hy ?_
      exact he ▸ (mem_of_zip hx).1

/-- The same cells, in streams of the same size. -/
def SameAt (k k' : Cache) : Prop := k'.at' = k.at' ∧ ∀ t, (k'.cells t).size = (k.cells t).size

theorem Vacant.congr {k k' : Cache} (hv : Vacant k r u) (h : SameAt k k') : Vacant k' r u :=
  ⟨hv.length, hv.nodup, fun y hy => by rw [h.1]; exact hv.pos y hy,
    fun y hy => by rw [h.2]; exact hv.bound y hy⟩

/-- The state a decode is in before an ubatch. -/
structure Reached (p : Params) (k : Cache) (steps : List (SlotInfo × Ubatch)) (n : Nat)
    (kn : Cache) (r : SlotInfo) (u : Ubatch) : Prop where
  step : steps[n]? = some (r, u)
  state : (steps.take n).foldlM (fun k x => applyUbatch p k x.1 x.2) k = some kn

/-- A decode fills the slots of the trial, up to the ubatch whose graph fails. -/
theorem Trial.processed {p : Params} {us : List Ubatch} (hp : p.swaType = .none)
    (ht : Trial p k₀ us ts kn) (hsame : SameAt k₀ k)
    (h : processUbatches p graph i k ((ts.map Turn.slot).zip us) = some (k', .failed j)) :
    ∃ n kj r u k₁, j = i + n ∧ Reached p k ((ts.map Turn.slot).zip us) n kj r u ∧
      Vacant kj r u ∧ applyUbatch p kj r u = some k₁ ∧ rollback p k₁ u = some k' := by
  induction ht generalizing k i with
  | done =>
    cases h
  | full _ =>
    cases h
  | @turn k₀ u r k₁ us ts kn hfound happly htrial ih =>
    have hv := (findSlot_spec (findSlot_tokens hfound) hfound).vacant hp
    rw [List.map_cons, List.zip_cons_cons, processUbatches] at h
    obtain ⟨l, hl, h⟩ := Option.bind_eq_some_iff.1 h
    have hsame' : SameAt k₁ l := by
      refine ⟨?_, fun t => ?_⟩
      · rw [(hv.congr hsame).applied hl, hv.applied happly, hsame.1]
      · rw [applyUbatch_size hl, applyUbatch_size happly, hsame.2]
    split at h
    · obtain ⟨n, kj, r', u', k₂, hj, hreached, hrest⟩ := ih hsame' h
      refine ⟨n + 1, kj, r', u', k₂, by omega, ⟨hreached.step, ?_⟩, hrest⟩
      rw [List.map_cons, List.zip_cons_cons, List.take_succ_cons]
      exact foldlM_cons_eq_some.2 ⟨l, hl, hreached.state⟩
    · obtain ⟨k₂, hk₂, h⟩ := Option.map_eq_some_iff.1 h
      cases h
      exact ⟨0, k, r, u, l, rfl, ⟨rfl, rfl⟩, hv.congr hsame, hl, hk₂⟩

/-- A position that the rollback of an ubatch removes: not before one of the tokens that have the
sequence as their first. -/
def Covered (u : Ubatch) (s : Nat) (pos : Int) : Prop :=
  (∃ x ∈ u.tokens, x.seqId.head? = some s ∧ x.pos ≤ pos) ∧ 0 ≤ pos ∧ pos < posMax

theorem posMin_le {u : Ubatch} {m : Nat → Int} (h : posMin u = some m) (hpos : pos < posMax) :
    m s ≤ pos ↔ ∃ x ∈ u.tokens, x.seqId.head? = some s ∧ x.pos ≤ pos := by
  have hall : ∀ (xs : List Token) (m₀ m : Nat → Int),
      xs.foldlM (fun m x => x.seqId.head?.map fun s => Function.update m s (min (m s) x.pos)) m₀ =
        some m →
      (m s ≤ pos ↔ m₀ s ≤ pos ∨ ∃ x ∈ xs, x.seqId.head? = some s ∧ x.pos ≤ pos) := by
    intro xs
    induction xs with
    | nil =>
      rintro m₀ m h
      cases h
      exact (or_iff_left fun ⟨x, hx, _⟩ => List.not_mem_nil hx).symm
    | cons x xs ih =>
      intro m₀ m h
      obtain ⟨m₁, h₁, hrest⟩ := foldlM_cons_eq_some.1 h
      obtain ⟨q, hq, rfl⟩ := Option.map_eq_some_iff.1 h₁
      rw [ih _ _ hrest, List.exists_mem_cons_iff, ← or_assoc]
      refine or_congr_left ?_
      by_cases hs : s = q
      · subst hs
        rw [Function.update_self, min_le_iff, hq]
        exact or_congr_right (and_iff_right rfl).symm
      · rw [Function.update_of_ne hs, hq]
        refine (or_iff_left fun h => ?_).symm
        exact hs (Option.some.inj h.1).symm
  rw [hall u.tokens _ m h]
  exact or_iff_right (not_le.2 hpos)

/-- The facts after the rollback of an ubatch. -/
theorem facts_rollback {k : Cache} (h : rollback p k u = some k') (f : Fact) :
    f ∈ facts p k' ↔ f ∈ facts p k ∧ ¬ Covered u f.seq f.pos := by
  obtain ⟨m, hm, h⟩ := Option.bind_eq_some_iff.1 h
  have hcov (s : Nat) (pos : Int) :
      Covered u s pos ↔ fromPos (m s) ≤ pos ∧ pos < posMax := by
    rw [Covered]
    constructor
    · rintro ⟨hx, hnn, hlt⟩
      have hle := (posMin_le hm hlt).2 hx
      refine ⟨?_, hlt⟩
      rw [fromPos]
      split <;> assumption
    · rintro ⟨hle, hlt⟩
      have hnn := (fromPos_nonneg (m s)).trans hle
      refine ⟨(posMin_le hm hlt).1 ?_, hnn, hlt⟩
      rw [fromPos] at hle
      split at hle
      · omega
      · exact hle
  have hall : ∀ (ss : List Nat) (k k' : Cache),
      ss.foldlM (fun k s => if m s = posMax then some k else k.seqRm p s (m s) (-1)) k = some k' →
      (f ∈ facts p k' ↔ f ∈ facts p k ∧ ¬ (f.seq ∈ ss ∧ Covered u f.seq f.pos)) := by
    intro ss
    induction ss with
    | nil =>
      rintro k k' h
      cases h
      exact (and_iff_left fun h => List.not_mem_nil h.1).symm
    | cons s ss ih =>
      intro k k' h
      obtain ⟨l, hl, hrest⟩ := foldlM_cons_eq_some.1 h
      have hstep : f ∈ facts p l ↔ f ∈ facts p k ∧ ¬ (f.seq = s ∧ Covered u f.seq f.pos) := by
        rw [hcov]
        split at hl
        · case isTrue hmax =>
          cases hl
          refine (and_iff_left ?_).symm
          rintro ⟨rfl, hle, hlt⟩
          rw [hmax] at hle
          exact absurd hlt (not_lt.2 hle)
        · rw [facts_seqRm hl]
          refine and_congr_right fun _ => not_congr ?_
          have hneg : ¬ (s : Int) < 0 := not_lt.2 (Int.natCast_nonneg s)
          rw [or_iff_right hneg, Int.natCast_inj]
          refine and_congr_right fun hs => ?_
          rw [hs]
          exact Iff.rfl
      rw [ih _ _ hrest, hstep, and_assoc, List.mem_cons, or_and_right, not_or]
  rw [hall _ _ _ h]
  refine and_congr_right fun hf => not_congr (and_iff_right ?_)
  exact List.mem_range.2 (hf.1.trans_le (nSeqIds_le p))

/-- A fact of a token in its place. -/
def New (p : Params) (r : SlotInfo) (u : Ubatch) (f : Fact) : Prop :=
  ∃ z ∈ r.places.zip u.tokens, z.1 = (p.stream f.seq, f.cell) ∧ f.seq < p.nSeqIds ∧
    f.seq ∈ z.2.seqId ∧ z.2.pos = f.pos

/-- The facts after an ubatch went to empty cells. -/
theorem Vacant.facts {p : Params} {k : Cache} (hk : k.Sound) (hv : Vacant k r u)
    (h : k.applyUbatch p r u = some k') (f : Fact) :
    f ∈ Cache.facts p k' ↔ f ∈ Cache.facts p k ∨ New p r u f := by
  have hat := congrFun (hv.applied h) (p.stream f.seq, f.cell)
  have hnd := zip_nodup hv.length hv.nodup
  have hfact (k : Cache) : f ∈ Cache.facts p k ↔ f.seq < p.nSeqIds ∧
      f.cell < (k.cells (p.stream f.seq)).size ∧
        (k.at' (p.stream f.seq, f.cell)).Holds f.seq f.pos := Iff.rfl
  rw [hfact, hfact, applyUbatch_size h, hat]
  by_cases hin : ∃ z ∈ r.places.zip u.tokens, z.1 = (p.stream f.seq, f.cell)
  · obtain ⟨z, hz, he⟩ := hin
    have hplace := (mem_of_zip hz).1
    have hold : ¬ (k.at' z.1).Holds f.seq f.pos := by
      intro hh
      exact (hk.bare z.1).pos_ne hh.1 (hv.pos z.1 hplace)
    have hbound : f.cell < (k.cells (p.stream f.seq)).size := by
      have hb := hv.bound z.1 hplace
      rw [he] at hb
      exact hb
    rw [← he, fill_place hnd hz]
    constructor
    · rintro ⟨hs, _, hseq, hpos⟩
      exact .inr ⟨z, hz, he, hs, List.mem_toFinset.1 hseq, hpos⟩
    · rintro (⟨_, _, hh⟩ | ⟨w, hw, hwe, hs, hseq, hpos⟩)
      · exact (hold hh).elim
      · have hwz : w = z := List.inj_on_of_nodup_map hnd hw hz (hwe.trans he.symm)
        subst hwz
        exact ⟨hs, hbound, List.mem_toFinset.2 hseq, hpos⟩
  · rw [fill_other fun z hz he => hin ⟨z, hz, he⟩]
    refine (or_iff_left ?_).symm
    rintro ⟨z, hz, he, _⟩
    exact hin ⟨z, hz, he⟩

/-- Where the rollback of an ubatch takes back the ubatch and no more: each sequence of its tokens
is the first of one that is not behind, and no earlier token has such a sequence so far on. -/
def RolledBack (p : Params) (k : Cache) (r : SlotInfo) (u : Ubatch) : Prop :=
  (∀ z ∈ r.places.zip u.tokens, ∀ s ∈ z.2.seqId, s < p.nSeqIds → p.stream s = z.1.1 →
    Covered u s z.2.pos) ∧
  ∀ f ∈ facts p k, ¬ Covered u f.seq f.pos

theorem rollback_iff {k : Cache} (hk : k.Sound) (hv : Vacant k r u)
    (h : k.applyUbatch p r u = some k₁) (hr : rollback p k₁ u = some k') :
    facts p k' = facts p k ↔ RolledBack p k r u := by
  have hfacts (f : Fact) :
      f ∈ facts p k' ↔ (f ∈ facts p k ∨ New p r u f) ∧ ¬ Covered u f.seq f.pos := by
    rw [facts_rollback hr, hv.facts hk h]
  have hnew (f : Fact) (hf : New p r u f) : f ∉ facts p k := by
    obtain ⟨z, hz, he, _⟩ := hf
    rintro ⟨_, _, hh⟩
    have hpos := hv.pos z.1 (mem_of_zip hz).1
    rw [he] at hpos
    exact (hk.bare (p.stream f.seq, f.cell)).pos_ne hh.1 hpos
  rw [Set.ext_iff]
  constructor
  · intro hsame
    refine ⟨fun z hz s hs hvalid hstream => ?_, fun f hf => ((hfacts f).1 ((hsame f).2 hf)).2⟩
    by_contra hno
    have hf : New p r u ⟨s, z.2.pos, z.1.2⟩ :=
      ⟨z, hz, Prod.ext hstream.symm rfl, hvalid, hs, rfl⟩
    exact hnew _ hf ((hsame _).1 ((hfacts _).2 ⟨.inr hf, hno⟩))
  · rintro ⟨hcovered, hold⟩ f
    rw [hfacts]
    constructor
    · rintro ⟨hf | ⟨z, hz, he, hs, hseq, hpos⟩, hno⟩
      · exact hf
      · refine (hno ?_).elim
        rw [← hpos]
        exact hcovered z hz f.seq hseq hs (congrArg Prod.fst he).symm
    · exact fun hf => ⟨.inl hf, hold f hf⟩

theorem Sound.memoryUpdate {k : Cache} (hk : k.Sound) (p : Params) (rotates : Bool) :
    (k.memoryUpdate p rotates).1.Sound := by
  rw [Cache.memoryUpdate]
  split
  · exact hk.update p _
  · exact hk

theorem Sound.prepare {k : Cache} {us : List Ubatch} (hk : k.Sound)
    (h : k.prepare p us = some (k', res)) : k'.Sound := by
  obtain ⟨_, _, _, hu, _⟩ := prepare_undone hk h
  exact hu.sound

/-- What a decode goes through: the slots of a trial, on cells as they were. -/
structure Ready (p : Params) (us : List Ubatch) (k : Cache) (slots : List SlotInfo) : Prop where
  sound : k.Sound
  trial : slots ≠ [] → ∃ k₀ ts kn, Trial p k₀ us ts kn ∧ slots = ts.map Turn.slot ∧ SameAt k₀ k

theorem prepare_ready {us : List Ubatch} (hp : p.swaType = .none) {k : Cache} (hk : k.Sound)
    (h : k.prepare p us = some (k', res)) : Ready p us k' res := by
  obtain ⟨ts, kn, ht, hu, hres⟩ := prepare_undone hk h
  refine ⟨hu.sound, fun hne => ⟨k, ts, kn, ht, hres hne, ?_, hu.size⟩⟩
  funext y
  exact (hu.cell y).2 (ht.spared hp y)

theorem initBatch_ready {us : List Ubatch} (hp : p.swaType = .none) {k : Cache} (hk : k.Sound)
    (h : initBatch p rotates k us = some (k', slots)) : Ready p us k' slots := by
  obtain ⟨⟨k₁, s₁⟩, h₁, h⟩ := Option.bind_eq_some_iff.1 h
  have hready := prepare_ready hp (hk.memoryUpdate p _) h₁
  dsimp only at h
  split at h
  · split at h
    · exact prepare_ready hp (hready.sound.memoryUpdate p _) h
    · cases h
      exact ⟨hready.sound.memoryUpdate p _, fun h => (h rfl).elim⟩
  · cases h
    exact hready

theorem Sound.steps {k : Cache} {steps : List (SlotInfo × Ubatch)} (hk : k.Sound)
    (h : steps.foldlM (fun k x => Cache.applyUbatch p k x.1 x.2) k = some k') : k'.Sound :=
  sweep_invariant (I := Sound) (fun _ hI h => hI.applyUbatch h) hk h

theorem decode_failed {us : List Ubatch} (hp : p.swaType = .none) {k : Cache} (hk : k.Sound)
    (h : decode p rotates graph k us = some (k', .failed i)) :
    ∃ k₀ slots ki r u, initBatch p rotates k us = some (k₀, slots) ∧
      Reached p k₀ (slots.zip us) i ki r u ∧
        (facts p k' = facts p ki ↔ RolledBack p ki r u) := by
  obtain ⟨⟨k₀, slots⟩, h₀, h⟩ := Option.bind_eq_some_iff.1 h
  have hready := initBatch_ready hp hk h₀
  dsimp only at h
  split at h
  · cases h
  · case isFalse hne =>
    obtain ⟨k₁, ts, kn, ht, rfl, hsame⟩ := hready.trial hne
    obtain ⟨n, ki, r, u, k₂, hn, hreached, hv, happly, hroll⟩ := ht.processed hp hsame h
    rw [Nat.zero_add] at hn
    subst hn
    exact ⟨k₀, _, ki, r, u, h₀, hreached,
      rollback_iff (hready.sound.steps hreached.state) hv happly hroll⟩

end ActQuant.KvCache.Cache
