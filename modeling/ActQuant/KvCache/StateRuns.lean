import ActQuant.KvCache.Reachable
import ActQuant.KvCache.StateSeq

namespace ActQuant.KvCache.Store
open ActQuant.Lib ActQuant.Batch Cache

/-! Where a reading that does not complete leaves nothing behind. -/

/-- Nothing is left of what is read back: the cache, or the sequence. -/
def Emptied (p : Params) (s : Int) (k : Cache) : Prop :=
  if s = -1 then AllEmpty p k else Absent (facts p k) s

/-- Where the reading of a whole cache that stops leaves it empty: a check fails, or the cells that
the input begins have no positions. -/
def AllClears (cfg : Config) (n size : Nat) (bs : List UInt8) : Prop :=
  size < n ∨ allFields cfg n bs = .crash () ∨ ∀ q ∈ positions n bs, q = -1

/-- The same of a stream of the state, from what the cache is before. -/
def SectionClears (cfg : Config) (s : Int) (t n : Nat) (st : Store) (bs : List UInt8) : Prop :=
  if s = -1 then AllClears cfg n (st.cache.cells t).size bs
  else SeqClears cfg s.toNat n st.cache bs

/-- What a stream that is read leaves empty: cells of a whole cache without positions. -/
def ReadEmpty (s : Int) (n : Nat) (bs : List UInt8) : Prop :=
  s = -1 ∧ ∀ q ∈ positions n bs, q = -1

/-- The same of the streams, one after the other; the first condition is of what is there before. -/
def StreamsClear (cfg : Config) (s : Int) : Prop → List Nat → Store → List UInt8 → Prop
  | E, [], _, _ => E
  | E, t :: ts, st, bs =>
    match Reader.number (ε := Unit) 4 bs with
    | .ok (n, rest) =>
      if n = 0 then StreamsClear cfg s E ts st rest
      else
        let t := if s = -1 then t else cfg.params.stream s.toNat
        match readSection cfg s t n st rest with
        | .ok st' rest' => StreamsClear cfg s (ReadEmpty s n rest) ts st' rest'
        | _ => SectionClears cfg s t n st rest
    | _ => E

/-- The same of the whole input. -/
def Clears (cfg : Config) (s : Int) (st : Store) (bs : List UInt8) : Prop :=
  match Reader.number (ε := Unit) 4 bs with
  | .ok (n, rest) =>
    if n = cfg.params.nStream then
      StreamsClear cfg s (Emptied cfg.params s st.cache) (List.range n) st rest
    else Emptied cfg.params s st.cache
  | _ => Emptied cfg.params s st.cache

/-- What is known of the ends of a part of the reading. -/
def Part.Left (P : α → Prop) (Q R : Cache → Prop) : Part α → Prop
  | .ok a _ => P a
  | .ended k => Q k
  | .refused k => R k
  | .fault => True

theorem seqClears_of_placed {k : Cache} {s : Nat} (hrm : k.seqRm cfg.params s (-1) (-1) = some k₀)
    (hps : readPositions n bs = .ok (ps, rest))
    (hslot : k₀.findSlot cfg.params (seqUbatch s ps) true = some (some r)) :
    SeqClears cfg s n k bs ↔ dataFields cfg n rest = .crash () ∧ (∀ q ∈ ps, Covered q) ∧
      ∀ f ∈ facts cfg.params k, f.seq = s →
        Covered f.pos ∨ (cfg.params.stream s, f.cell) ∈ r.places := by
  have hfound : seqSlot cfg.params s k ps = some r := by
    rw [seqSlot_eq hrm, hslot]
    rfl
  constructor
  · rintro (⟨_, hno⟩ | ⟨ps', rest', r', hps', hslot', h⟩)
    · have h := hno ps rest hps
      rw [hfound] at h
      cases h
    · rw [hps] at hps'
      cases hps'
      rw [hfound] at hslot'
      cases hslot'
      exact h
  · exact fun h => .inr ⟨ps, rest, r, hps, hfound, h⟩

theorem seqClears_of_none {s : Nat} (cfg : Config) (k : Cache) (bs : List UInt8)
    (hno : ∀ ps rest, readPositions n bs = .ok (ps, rest) → seqSlot cfg.params s k ps = none) :
    SeqClears cfg s n k bs ↔ Removable cfg.params s k := by
  refine ⟨?_, fun h => .inl ⟨h, hno⟩⟩
  rintro (⟨h, _⟩ | ⟨ps, rest, r, hps, hslot, _⟩)
  · exact h
  · rw [hno ps rest hps] at hslot
    cases hslot

theorem readSection_seq {s : Nat} (hk : st.cache.Sound) (hs : s < cfg.params.nSeqIds)
    (hn : n ≠ 0) :
    (readSection cfg s (cfg.params.stream s) n st bs).Left
      (fun st' => st'.cache.Sound ∧ ¬ Absent (facts cfg.params st'.cache) s)
      (fun k => Absent (facts cfg.params k) s ↔ SeqClears cfg s n st.cache bs)
      (fun k => ∀ k', k.seqRm cfg.params s (-1) (-1) = some k' →
        (Absent (facts cfg.params k') s ↔ SeqClears cfg s n st.cache bs)) := by
  have hcases := readSeqMeta_cases cfg.params s (cfg.params.stream s) n st.cache bs
  rw [readSection, readMeta, if_neg (by omega), Int.toNat_natCast]
  generalize readSeqMeta cfg.params s (cfg.params.stream s) n st.cache bs = part at hcases ⊢
  cases hcases with
  | fault => trivial
  | ended hrm hps =>
    have hnone := seqClears_of_none (s := s) (n := n) cfg st.cache bs
      fun ps rest h => by rw [hps] at h; cases h
    exact (seqRm_absent_iff hrm).trans hnone.symm
  | refused hrm hps =>
    intro k' hrm'
    rw [seqRm_absent_iff hrm', seqRm_removable_iff hrm]
    exact (seqClears_of_none cfg st.cache bs hps).symm
  | @ok k₀ ps rest r k₁ i hrm hps hslot happly hback =>
    have hlen := readPositions_length hps
    have hne : ps ≠ [] := by
      rintro rfl
      exact hn hlen.symm
    have hsound : k₁.Sound := (hk.seqRm hrm).applyUbatch happly
    have hplaced := placed_removable_iff hk hs hne hrm hslot happly hback
    obtain ⟨f, hf, hfs⟩ := readBack_fact hs hne hback
    have hthere : ¬ Absent (facts cfg.params k₁) s := fun h => h f hf (congrArg Nat.cast hfs)
    have hsize : n ≤ (k₁.cells (cfg.params.stream s)).size := by
      have hfit := hback.1
      omega
    let st₂ : Store :=
      { st with cache := { k₁ with head := Function.update k₁.head (cfg.params.stream s) i } }
    have hdata : Load.Alike (SameRest (SameCells st₂.cache))
        (readData cfg (cfg.params.stream s) n st₂ rest) (dataFields cfg n rest) :=
      readData_alike cfg st₂ hsize rest
    dsimp only
    generalize readData cfg (cfg.params.stream s) n st₂ rest = l at hdata ⊢
    have hclears := seqClears_of_placed hrm hps hslot
    generalize dataFields cfg n rest = l' at hdata hclears
    cases hdata with
    | null =>
      rw [Part.Left, hclears]
      refine ⟨fun h => (hthere h).elim, fun h => ?_⟩
      cases h.1
    | crash f =>
      intro k' hrm'
      rw [seqRm_absent_iff hrm', hclears]
      exact hplaced.trans (and_iff_right rfl).symm
    | @ok x y h =>
      obtain ⟨st', rest'⟩ := x
      obtain ⟨hcache, _⟩ := h
      have hcache : st'.cache = st₂.cache := hcache
      rw [Part.Left, hcache]
      exact ⟨⟨hsound.counted, hsound.bare⟩, hthere⟩

theorem Part.Left.mono {P P' : α → Prop} {Q Q' R R' : Cache → Prop} {part : Part α}
    (h : part.Left P Q R) (hP : ∀ a, P a → P' a) (hQ : ∀ k, Q k → Q' k) (hR : ∀ k, R k → R' k) :
    part.Left P' Q' R' := by
  cases part with
  | ok a rest => exact hP a h
  | ended k => exact hQ k h
  | refused k => exact hR k h
  | fault => trivial

theorem readSection_whole (ht : t < cfg.params.nStream) :
    (readSection cfg (-1) t n st bs).Left
      (fun st' => AllEmpty cfg.params st'.cache ↔ ∀ q ∈ positions n bs, q = -1)
      (fun k => AllEmpty cfg.params k ↔ AllClears cfg n (st.cache.cells t).size bs)
      (fun _ => AllClears cfg n (st.cache.cells t).size bs) := by
  by_cases hn : n ≤ (st.cache.cells t).size
  · have hall := readSection_all bs ht hn
    generalize readSection cfg (-1) t n st bs = part at hall ⊢
    cases part with
    | fault => trivial
    | refused k => exact .inr (.inl hall)
    | ok st' rest => exact hall.2
    | ended k =>
      obtain ⟨hnull, hempty⟩ := hall
      refine hempty.trans ⟨fun h => .inr (.inr h), ?_⟩
      rintro (hlt | hcrash | h)
      · omega
      · rw [hnull] at hcrash
        cases hcrash
      · exact h
  · rw [readSection, readMeta, if_pos rfl, readAllMeta, if_pos (Nat.lt_of_not_le hn)]
    exact .inl (Nat.lt_of_not_le hn)

/-- The stream that the cells go to. -/
def destStream (p : Params) (s : Int) (t : Nat) : Nat := if s = -1 then t else p.stream s.toNat

theorem readSection_left (bs : List UInt8) (hs : s = -1 ∨ validSeq cfg.params s) (ht : t < cfg.params.nStream)
    (hk : 0 ≤ s → st.cache.Sound) (hn : n ≠ 0) :
    (readSection cfg s (destStream cfg.params s t) n st bs).Left
      (fun st' => (0 ≤ s → st'.cache.Sound) ∧
        (Emptied cfg.params s st'.cache ↔ ReadEmpty s n bs))
      (fun k => Emptied cfg.params s k ↔
        SectionClears cfg s (destStream cfg.params s t) n st bs)
      (fun k => ∀ k', cleanup cfg s k = some k' → (Emptied cfg.params s k' ↔
        SectionClears cfg s (destStream cfg.params s t) n st bs)) := by
  rcases hs with rfl | hs
  · refine (readSection_whole ht).mono ?_ ?_ ?_
    · exact fun st' h => ⟨fun h => by omega, h.trans (and_iff_right rfl).symm⟩
    · exact fun k h => h
    · intro k h k' hk'
      cases hk'
      exact ⟨fun _ => h, fun _ => clear_allEmpty cfg.params k⟩
  · obtain ⟨hs, hlt⟩ := validSeq_eq.1 hs
    obtain ⟨s, rfl⟩ := Int.eq_ofNat_of_zero_le hs
    have hne : ((s : Nat) : Int) ≠ -1 := by omega
    rw [Int.toNat_natCast] at hlt
    rw [destStream, if_neg hne, Int.toNat_natCast]
    refine (readSection_seq (hk hs) hlt hn).mono ?_ ?_ ?_
    · intro st' h
      refine ⟨fun _ => h.1, ?_⟩
      rw [Emptied, if_neg hne]
      exact ⟨fun habs => (h.2 habs).elim, fun h => (hne h.1).elim⟩
    · intro k h
      rw [Emptied, if_neg hne, SectionClears, if_neg hne]
      exact h
    · intro k h k' hk'
      rw [cleanup, if_neg hne] at hk'
      rw [Emptied, if_neg hne, SectionClears, if_neg hne]
      exact h k' hk'

theorem readStreams_threw {ts : List Nat} (hs : s = -1 ∨ validSeq cfg.params s)
    (hts : ∀ t ∈ ts, t < cfg.params.nStream) (hk : 0 ≤ s → st.cache.Sound)
    (hE : Emptied cfg.params s st.cache ↔ E) (h : readStreams cfg s ts st bs = .threw k) :
    Emptied cfg.params s k ↔ StreamsClear cfg s E ts st bs := by
  induction ts generalizing st bs E with
  | nil => cases h
  | cons t ts ih =>
    rw [readStreams] at h
    rw [StreamsClear]
    cases hnum : (Reader.number 4 bs : Load Unit _) with
    | null =>
      rw [hnum] at h
      cases h
      exact hE
    | crash f =>
      rw [hnum] at h
      cases h
    | ok x =>
      obtain ⟨n, rest⟩ := x
      rw [hnum] at h
      dsimp only at h ⊢
      have hts' : ∀ t ∈ ts, t < cfg.params.nStream := fun t ht => hts t (List.mem_cons_of_mem _ ht)
      split at h
      · case isTrue hn =>
        rw [if_pos hn]
        exact ih hts' hk hE h
      · case isFalse hn =>
        rw [if_neg hn]
        have hleft := readSection_left rest hs (hts t List.mem_cons_self) hk hn
        rw [destStream] at hleft
        generalize readSection cfg s (if s = -1 then t else cfg.params.stream s.toNat) n st rest =
          part at h hleft ⊢
        cases part with
        | fault => cases h
        | ended k' =>
          cases h
          exact hleft
        | refused k' =>
          dsimp only at h
          cases hclean : cleanup cfg s k' with
          | none =>
            rw [hclean] at h
            cases h
          | some k'' =>
            rw [hclean] at h
            cases h
            exact hleft _ hclean
        | ok st' rest' => exact ih hts' hleft.1 hleft.2 h

/-- A reading that does not complete leaves nothing of what is read back exactly where it clears:
the input does not end behind cells that were given positions, and what a failed check leaves to
`seq_rm` has positions it removes. -/
theorem stateRead_threw (hk : Reachable cfg.params st.cache)
    (h : stateRead cfg s st bs = .threw k) :
    Emptied cfg.params s k ↔ Clears cfg s st bs := by
  rw [stateRead, ite_eq_iff'] at h
  rw [Clears]
  by_cases hs : s = -1 ∨ validSeq cfg.params s
  · have h := h.1 hs
    cases hnum : (Reader.number 4 bs : Load Unit _) with
    | null =>
      rw [hnum] at h
      cases h
      exact Iff.rfl
    | crash f =>
      rw [hnum] at h
      cases h
    | ok x =>
      obtain ⟨n, rest⟩ := x
      rw [hnum] at h
      dsimp only at h ⊢
      split at h
      · case isTrue hn =>
        rw [if_pos hn, hn]
        exact readStreams_threw hs (fun t => List.mem_range.1) (fun _ => hk.sound) Iff.rfl h
      · case isFalse hn =>
        rw [if_neg hn]
        cases h
        exact Iff.rfl
  · cases h.2 hs

theorem small_lt (hn : n ≤ 4) (hw : 0 < w) : n < 256 ^ w :=
  calc n < 256 ^ 1 := by omega
    _ ≤ 256 ^ w := Nat.pow_le_pow_right (by decide) hw

/-- A layer whose rows have four bytes. -/
def fourBytes : Layer where
  kType := 0
  kRow := 4
  vType := 0
  vRow := 4
  vEl := 4
  vWidth := 1
  kType_lt := small_lt (Nat.zero_le 4) (Nat.succ_pos 3)
  kRow_lt := small_lt (Nat.le_refl 4) (Nat.succ_pos 7)
  vType_lt := small_lt (Nat.zero_le 4) (Nat.succ_pos 3)
  vRow_lt := small_lt (Nat.le_refl 4) (Nat.succ_pos 7)
  vEl_lt := small_lt (Nat.le_refl 4) (Nat.succ_pos 3)
  vWidth_lt := small_lt (Nat.le_add_right 1 3) (Nat.succ_pos 3)

def oneLayer : Config := 
  ⟨oneStream, [fourBytes], false, small_lt (Nat.le_add_right 1 3) (Nat.succ_pos 3)⟩

def emptyStore : Store := ⟨create 2, fun _ _ => 0, fun _ _ => 0⟩

/-- One cell of a state, at the first position of the first sequence, and nothing behind it. -/
def onlyMeta : List UInt8 := [1, 1, 0, 1, 0].flatMap (leBytes 4)

theorem thrown_eq_some {o : Outcome} : o.thrown = some k ↔ o = .threw k := by
  cases o with
  | done st rest => exact ⟨fun h => (nomatch h), fun h => (nomatch h)⟩
  | threw k' => exact ⟨fun h => congrArg Outcome.threw (Option.some.inj h),
      fun h => congrArg some (Outcome.threw.inj h)⟩
  | fault => exact ⟨fun h => (nomatch h), fun h => (nomatch h)⟩

theorem stateRead_threw_onlyMeta : ∃ k, stateRead oneLayer 0 emptyStore onlyMeta = .threw k ∧
    (Emptied oneLayer.params 0 k ↔ Clears oneLayer 0 emptyStore onlyMeta) := by
  have hruns : (stateRead oneLayer 0 emptyStore onlyMeta).thrown.isSome = true := by
    decide +kernel
  obtain ⟨k, hk⟩ := Option.isSome_iff_exists.1 hruns
  have h := thrown_eq_some.1 hk
  exact ⟨k, h, stateRead_threw (.create 2) h⟩

/-- The input ends before the data, and the sequence stays. -/
theorem stateRead_leaves_sequence : ∃ k, Reachable oneLayer.params emptyStore.cache ∧
    stateRead oneLayer 0 emptyStore onlyMeta = .threw k ∧ ¬ Emptied oneLayer.params 0 k := by
  have hruns : (stateRead oneLayer 0 emptyStore onlyMeta).thrown.map
      (fun k => ((k.cells 0).size, (k.cells 0).cell 0)) = some (2, ⟨0, 0, {0}⟩) := by
    decide +kernel
  obtain ⟨k, hk, hcell⟩ := Option.map_eq_some_iff.1 hruns
  simp only [Prod.mk.injEq] at hcell
  obtain ⟨hsize, hcell⟩ := hcell
  refine ⟨k, .create 2, thrown_eq_some.1 hk, fun hempty => ?_⟩
  have hin : (⟨0, 0, 0⟩ : Fact) ∈ facts oneLayer.params k := by
    refine ⟨by decide, ?_, ?_⟩
    · change 0 < (k.cells 0).size
      omega
    · change ((k.cells 0).cell 0).Holds 0 0
      rw [hcell]
      exact ⟨Finset.mem_singleton_self 0, rfl⟩
  exact hempty ⟨0, 0, 0⟩ hin rfl

end ActQuant.KvCache.Store
