import ActQuant.Batch.Split
import ActQuant.Lib.Sweep
import Mathlib.Data.Int.Interval

namespace ActQuant.Batch
open ActQuant.Lib

/-! What a batch that `init` accepts is like. -/

/-- Positions that do not decrease in batch order. -/
def NonDecreasing (xs : List Token) : Prop := ∀ s, (posOf xs s).Pairwise (· ≤ ·)

/-- Of two tokens of a sequence, one belongs to all the sequences of the other. -/
def Nested (xs : List Token) : Prop :=
  ∀ x ∈ xs, ∀ y ∈ xs, ∀ s ∈ x.seqId, s ∈ y.seqId → x.seqSet ⊆ y.seqSet ∨ y.seqSet ⊆ x.seqSet

/-- Positions without a gap. -/
def Gapless (l : List Int) : Prop := ∀ a ∈ l, ∀ b ∈ l, ∀ q, a ≤ q → q ≤ b → q ∈ l

/-- The first position of a sequence goes on from the memory. -/
def MayStart (hasToken : Bool) (mem : Option Memory) (s : Nat) (q : Int) : Prop :=
  ∀ m ∈ mem, 0 ≤ m.seqPosMax s →
    q = m.seqPosMax s + 1 ∨ hasToken = false ∧ q = m.seqPosMax s

/-- What the checks of `init` announce. -/
structure Promised (batch : LlamaBatch) (nVocab nSeqMax : Nat) (mem : Option Memory)
    (xs : List Token) : Prop where
  tokens : batch.hasToken = true → ∀ e ∈ batch.entries, 0 ≤ e.token ∧ e.token < nVocab
  seqIds : ∀ x ∈ xs, ∀ s ∈ x.seqId, s < nSeqMax
  gapless : ∀ s, Gapless (posOf xs s)
  continues : ∀ s, posOf xs s ≠ [] → MayStart batch.hasToken mem s (seqPosMin xs s)
  ordered : NonDecreasing xs
  nested : Nested xs

theorem seqPosMin_spec {xs : List Token} (h : posOf xs s ≠ []) :
    seqPosMin xs s ∈ posOf xs s ∧ ∀ q ∈ posOf xs s, seqPosMin xs s ≤ q := by
  have hne : (seqPos xs s).Nonempty := List.toFinset_nonempty_iff _ |>.2 h
  have hmin : seqPosMin xs s = (seqPos xs s).min' hne := by
    rw [seqPosMin, ← Finset.coe_min' hne]
    rfl
  rw [hmin]
  refine ⟨List.mem_toFinset.1 (Finset.min'_mem _ hne), fun q hq => ?_⟩
  exact Finset.min'_le _ _ (List.mem_toFinset.2 hq)

theorem seqPosMax_spec {xs : List Token} (h : posOf xs s ≠ []) :
    seqPosMax xs s ∈ posOf xs s ∧ ∀ q ∈ posOf xs s, q ≤ seqPosMax xs s := by
  have hne : (seqPos xs s).Nonempty := List.toFinset_nonempty_iff _ |>.2 h
  have hmax : seqPosMax xs s = (seqPos xs s).max' hne := by
    rw [seqPosMax, ← Finset.coe_max' hne]
    rfl
  rw [hmax]
  refine ⟨List.mem_toFinset.1 (Finset.max'_mem _ hne), fun q hq => ?_⟩
  exact Finset.le_max' _ _ (List.mem_toFinset.2 hq)

/-- As many positions as fit between the least and the greatest. -/
theorem gapless_of_card {xs : List Token} (h : posOf xs s ≠ [])
    (hcard : seqPosMax xs s - seqPosMin xs s + 1 ≤ (seqPos xs s).card) :
    Gapless (posOf xs s) := by
  obtain ⟨hmem, hmin⟩ := seqPosMin_spec h
  obtain ⟨_, hmax⟩ := seqPosMax_spec h
  have hsub : seqPos xs s ⊆ Finset.Icc (seqPosMin xs s) (seqPosMax xs s) := by
    intro q hq
    have hq := List.mem_toFinset.1 hq
    exact Finset.mem_Icc.2 ⟨hmin q hq, hmax q hq⟩
  have heq : seqPos xs s = Finset.Icc (seqPosMin xs s) (seqPosMax xs s) := by
    apply Finset.eq_of_subset_of_card_le hsub
    have hle := hmax _ hmem
    rw [Int.card_Icc]
    omega
  intro a ha b hb q hle hge
  have hin : q ∈ seqPos xs s := by
    rw [heq, Finset.mem_Icc]
    exact ⟨(hmin a ha).trans hle, hge.trans (hmax b hb)⟩
  exact List.mem_toFinset.1 hin

theorem consistent_spec {xs : List Token} (h : consistent xs hasToken mem s = true)
    (hne : posOf xs s ≠ []) :
    Gapless (posOf xs s) ∧ MayStart hasToken mem s (seqPosMin xs s) := by
  rw [consistent, Bool.or_eq_true, decide_eq_true_eq, Bool.and_eq_true, decide_eq_true_eq] at h
  have hpos : seqPos xs s ≠ ∅ := fun he => hne (List.toFinset_eq_empty_iff _ |>.1 he)
  obtain ⟨hmem, hcard⟩ := h.resolve_left hpos
  refine ⟨gapless_of_card hne hcard, ?_⟩
  rintro m hm hnn
  obtain rfl := Option.mem_def.1 hm
  rw [Option.all_some, Bool.or_eq_true, decide_eq_true_eq] at hmem
  have hmem := hmem.resolve_left (not_lt.2 hnn)
  cases hasToken with
  | true =>
    rw [if_pos rfl, beq_iff_eq] at hmem
    exact .inl hmem
  | false =>
    rw [if_neg Bool.false_ne_true, Bool.or_eq_true, beq_iff_eq, beq_iff_eq] at hmem
    exact hmem.symm.imp_right fun h => ⟨rfl, h⟩

theorem posOf_ne {xs : List Token} : posOf xs s ≠ [] ↔ ∃ x ∈ xs, s ∈ x.seqId := by
  rw [posOf, ne_eq, List.map_eq_nil_iff, List.filter_eq_nil_iff]
  simp only [List.contains_iff_mem, not_forall, not_not, exists_prop]

namespace LlamaBatch

theorem genPos_length {p₀ : Nat → Int} {sss : List (List Nat)} (h : genPos p₀ sss = some ps) :
    ps.length = sss.length := by
  induction sss generalizing p₀ ps with
  | nil =>
    cases h
    rfl
  | cons ss rest ih =>
    rw [genPos] at h
    obtain ⟨s, _, h⟩ := Option.bind_eq_some_iff.1 h
    rw [Option.ite_none_right_eq_some] at h
    obtain ⟨qs, hqs, rfl⟩ := Option.map_eq_some_iff.1 h.2
    rw [List.length_cons, List.length_cons, ih hqs]

theorem positions_length {batch : LlamaBatch} (h : batch.positions mem = some ps) :
    ps.length = batch.seqIds.length := by
  rw [positions] at h
  split at h
  · cases h
    rw [seqIds, List.length_map, List.length_map]
  · exact genPos_length h

theorem outputs_length (batch : LlamaBatch) (outputAll : Bool) :
    (batch.outputs outputAll).length = batch.seqIds.length := by
  rw [outputs, seqIds]
  split
  · rw [List.length_map, List.length_map]
  · split
    · rw [List.length_map, List.length_map]
    · rw [List.length_map, List.length_range, List.length_map]

/-- The sequences and positions of the filled batch. -/
theorem fill_spec {batch : LlamaBatch} (h : batch.fill mem outputAll = some xs) :
    (∀ ss ∈ batch.seqIds, ss ≠ []) ∧ ∃ ps, batch.positions mem = some ps ∧
      ps.length = batch.seqIds.length ∧
      xs.map (fun x => (x.pos, x.seqId)) = ps.zip batch.seqIds := by
  rw [fill, Option.ite_none_right_eq_some] at h
  obtain ⟨hne, h⟩ := h
  obtain ⟨ps, hps, rfl⟩ := Option.map_eq_some_iff.1 h
  have hlen := positions_length hps
  refine ⟨?_, ps, hps, hlen, ?_⟩
  · intro ss hss hnil
    have hss := List.all_eq_true.1 hne ss hss
    rw [hnil] at hss
    cases hss
  · have hout := outputs_length batch outputAll
    rw [List.map_zipWith]
    apply List.ext_getElem
    · simp only [List.length_zipWith, List.length_zip]
      omega
    · intro i h₁ h₂
      simp only [List.getElem_zipWith, List.getElem_zip]

theorem seqIds_lt {batch : LlamaBatch} (hmax : 0 < nSeqMax)
    (h : batch.validSeqIds nSeqMax = true) (hss : ss ∈ batch.seqIds) (hs : s ∈ ss) :
    s < nSeqMax := by
  obtain ⟨e, he, rfl⟩ := List.mem_map.1 hss
  rw [validSeqIds, Bool.or_eq_true, Bool.not_eq_true'] at h
  split at hs
  · case isTrue hhas =>
    have hall := h.resolve_left fun hno => by rw [hhas] at hno; cases hno
    obtain ⟨q, hq, rfl⟩ := List.mem_map.1 hs
    have hq := List.all_eq_true.1 (List.all_eq_true.1 hall e he) q hq
    rw [Bool.and_eq_true, decide_eq_true_eq, decide_eq_true_eq] at hq
    omega
  · rw [List.mem_singleton.1 hs]
    exact hmax

theorem tokens_valid {batch : LlamaBatch} (h : batch.validTokens nVocab = true)
    (hhas : batch.hasToken = true) (he : e ∈ batch.entries) : 0 ≤ e.token ∧ e.token < nVocab := by
  rw [validTokens, hhas, Bool.not_true, Bool.false_or] at h
  have he := List.all_eq_true.1 h e he
  rw [Bool.and_eq_true, decide_eq_true_eq, decide_eq_true_eq] at he
  exact he

theorem mem_seqIds {batch : LlamaBatch} (h : batch.fill mem outputAll = some xs) (hx : x ∈ xs) :
    x.seqId ∈ batch.seqIds := by
  obtain ⟨_, ps, _, hlen, hzip⟩ := fill_spec h
  have hmap : xs.map Token.seqId = batch.seqIds := by
    rw [← List.map_snd_zip (le_of_eq hlen.symm), ← hzip, List.map_map]
    rfl
  exact hmap ▸ List.mem_map_of_mem hx

end LlamaBatch

theorem init_eq_some {batch : LlamaBatch} : init batch nVocab nSeqMax mem outputAll = some b ↔
    (batch.entries ≠ [] ∧ nSeqMax ≤ LLAMA_MAX_SEQ ∧ batch.validTokens nVocab ∧
      batch.validSeqIds nSeqMax) ∧ ∃ xs, batch.fill mem outputAll = some xs ∧
        accepts xs batch.hasToken mem nSeqMax ∧ b = ⟨xs, nSeqMax⟩ := by
  rw [init, Option.ite_none_right_eq_some, Option.bind_eq_some_iff]
  refine and_congr_right fun _ => exists_congr fun xs => and_congr_right fun _ => ?_
  rw [Option.ite_none_right_eq_some, Option.some_inj]
  exact and_congr_right fun _ => eq_comm

/-- An accepted batch is as promised where its positions do not decrease and its sequence sets are
nested, which no check asks for. -/
theorem init_promised_iff {batch : LlamaBatch} (hmax : 0 < nSeqMax)
    (h : init batch nVocab nSeqMax mem outputAll = some b) :
    Promised batch nVocab nSeqMax mem b.tokens ↔ NonDecreasing b.tokens ∧ Nested b.tokens := by
  obtain ⟨⟨_, _, htokens, hids⟩, xs, hfill, haccepts, rfl⟩ := init_eq_some.1 h
  rw [accepts, Bool.and_eq_true, Bool.and_eq_true] at haccepts
  have hvalid : ∀ x ∈ xs, ∀ s ∈ x.seqId, s < nSeqMax := fun x hx s hs =>
    LlamaBatch.seqIds_lt hmax hids (LlamaBatch.mem_seqIds hfill hx) hs
  have hspec (s : Nat) (hne : posOf xs s ≠ []) :
      Gapless (posOf xs s) ∧ MayStart batch.hasToken mem s (seqPosMin xs s) := by
    obtain ⟨x, hx, hs⟩ := posOf_ne.1 hne
    have hlt := List.mem_range.2 (hvalid x hx s hs)
    exact consistent_spec (List.all_eq_true.1 haccepts.1.1 s hlt) hne
  constructor
  · exact fun hp => ⟨hp.ordered, hp.nested⟩
  · rintro ⟨hordered, hnested⟩
    refine ⟨fun hhas e he => ?_, hvalid, fun s => ?_, fun s hne => (hspec s hne).2, hordered,
      hnested⟩
    · exact LlamaBatch.tokens_valid htokens hhas he
    · by_cases hne : posOf xs s = []
      · rw [hne]
        exact fun a ha => (List.not_mem_nil ha).elim
      · exact (hspec s hne).1

/-! ## Generated positions -/

/-- Each position is the next one, or the last one again. -/
def Onward : Int → List Int → Prop
  | _, [] => True
  | n, q :: l => (q = n ∨ q = n - 1) ∧ Onward (q + 1) l

theorem onward_iff : Onward (a + 1) l ↔ (a :: l).Pairwise (· ≤ ·) ∧ Gapless (a :: l) := by
  induction l generalizing a with
  | nil =>
    refine iff_of_true trivial ⟨List.pairwise_singleton _ a, ?_⟩
    intro b hb c hc q hle hge
    rw [List.mem_singleton] at hb hc ⊢
    omega
  | cons q l ih =>
    rw [Onward, ih, List.pairwise_cons (a := a)]
    constructor
    · rintro ⟨hq, hsorted, hgap⟩
      have hle := (List.pairwise_cons.1 hsorted).1
      refine ⟨⟨fun b hb => ?_, hsorted⟩, ?_⟩
      · rcases List.mem_cons.1 hb with rfl | hb
        · omega
        · have hb := hle b hb
          omega
      · have hmin : ∀ b ∈ q :: l, q ≤ b := by
          intro b hb
          rcases List.mem_cons.1 hb with rfl | hb
          · exact le_rfl
          · exact hle b hb
        intro b hb c hc x hbx hxc
        by_cases hxa : x = a
        · rw [hxa]
          exact List.mem_cons_self
        · have hqx : q ≤ x := by
            rcases List.mem_cons.1 hb with rfl | hb
            · omega
            · exact (hmin b hb).trans hbx
          refine List.mem_cons_of_mem _ ?_
          rcases List.mem_cons.1 hc with rfl | hc
          · have hca : q = c ∨ q = c + 1 := by omega
            have hxq : x = q := by omega
            rw [hxq]
            exact List.mem_cons_self
          · exact hgap q List.mem_cons_self c hc x hqx hxc
    · rintro ⟨⟨hall, hsorted⟩, hgap⟩
      have haq := hall q List.mem_cons_self
      have hle := (List.pairwise_cons.1 hsorted).1
      refine ⟨?_, hsorted, ?_⟩
      · by_contra hno
        have hin := hgap a List.mem_cons_self q (List.mem_cons_of_mem _ List.mem_cons_self) (a + 1)
          (by omega) (by omega)
        rcases List.mem_cons.1 hin with he | hin
        · omega
        · rcases List.mem_cons.1 hin with he | hin
          · omega
          · have hlt := hle _ hin
            omega
      · intro b hb c hc x hbx hxc
        have hin := hgap b (List.mem_cons_of_mem _ hb) c (List.mem_cons_of_mem _ hc) x hbx hxc
        rcases List.mem_cons.1 hin with rfl | hin
        · have hbq : q ≤ b := by
            rcases List.mem_cons.1 hb with rfl | hb
            · exact le_rfl
            · exact hle b hb
          have hxq : x = q := by omega
          rw [hxq]
          exact List.mem_cons_self
        · exact hin

/-- The counters of the sequences of a token agree, as far as it shows: each has the position of the
token next, or just had it, or may start there. -/
def Aligned (may : Nat → Int → Prop) (next : Nat → Int) (seen : Nat → Bool) :
    List (List Nat) → Prop
  | [] => True
  | ss :: rest => ∀ s₀ ∈ ss.head?,
    (∀ s ∈ ss, if seen s then next s₀ = next s ∨ next s₀ = next s - 1 else may s (next s₀)) ∧
      Aligned may (fun q => if q ∈ ss then next s₀ + 1 else next q)
        (fun q => seen q || ss.contains q) rest

/-- The positions of a sequence in a list of positions and sequences. -/
def placed (xs : List (Int × List Nat)) (s : Nat) : List Int :=
  (xs.filter fun x => x.2.contains s).map Prod.fst

/-- The positions of a sequence from its counter on. -/
def GoesOn (may : Int → Prop) (next : Int) (seen : Bool) (l : List Int) : Prop :=
  if seen then Onward next l else ∀ q ∈ l.head?, may q ∧ Onward (q + 1) l.tail

theorem aligned_iff {may : Nat → Int → Prop} {next : Nat → Int} {seen : Nat → Bool}
    {sss : List (List Nat)} (h : genPos next sss = some ps) :
    Aligned may next seen sss ↔
      ∀ s, GoesOn (may s) (next s) (seen s) (placed (ps.zip sss) s) := by
  induction sss generalizing next seen ps with
  | nil =>
    refine iff_of_true trivial fun s => ?_
    rw [List.zip_nil_right, GoesOn]
    split
    · trivial
    · exact fun q hq => (nomatch hq)
  | cons ss rest ih =>
    rw [genPos] at h
    obtain ⟨s₀, hs₀, h⟩ := Option.bind_eq_some_iff.1 h
    rw [Option.ite_none_right_eq_some] at h
    obtain ⟨qs, hqs, rfl⟩ := Option.map_eq_some_iff.1 h.2
    have hplaced (s : Nat) : placed ((next s₀ :: qs).zip (ss :: rest)) s =
        if s ∈ ss then next s₀ :: placed (qs.zip rest) s else placed (qs.zip rest) s := by
      rw [placed, List.zip_cons_cons, List.filter_cons]
      simp only [List.contains_iff_mem]
      split <;> rfl
    have hhead : ∀ P : Nat → Prop, (∀ s ∈ ss.head?, P s) ↔ P s₀ := by
      intro P
      rw [hs₀]
      exact ⟨fun h => h s₀ rfl, fun h s hs => Option.some.inj hs ▸ h⟩
    rw [Aligned, hhead, ih hqs]
    refine forall_and.symm.trans (forall_congr' fun s => ?_)
    rw [hplaced]
    by_cases hs : s ∈ ss
    · have hseen : (seen s || ss.contains s) = true := by
        rw [List.contains_iff_mem.2 hs, Bool.or_true]
      simp only [hseen, GoesOn, if_true, forall_const, hs]
      cases seen s with
      | true => exact Iff.rfl
      | false => exact ⟨fun h q hq => Option.some.inj hq ▸ h, fun h => h _ rfl⟩
    · have hseen : (seen s || ss.contains s) = seen s := by
        rw [Bool.eq_false_iff.2 fun h => hs (List.contains_iff_mem.1 h), Bool.or_false]
      simp only [hseen, hs, if_false, false_implies, true_and]

theorem posOf_eq_placed {xs : List Token} {ps : List Int} {sss : List (List Nat)}
    (h : xs.map (fun x => (x.pos, x.seqId)) = ps.zip sss) (s : Nat) :
    posOf xs s = placed (ps.zip sss) s := by
  rw [placed, ← h, List.filter_map, List.map_map]
  rfl

theorem seqPosMin_cons {xs : List Token} (h : posOf xs s = q :: l)
    (hle : (q :: l).Pairwise (· ≤ ·)) : seqPosMin xs s = q := by
  have hne : posOf xs s ≠ [] := by
    rw [h]
    exact List.cons_ne_nil q l
  obtain ⟨hmem, hmin⟩ := seqPosMin_spec hne
  rw [h] at hmem hmin
  have hq := hmin q List.mem_cons_self
  rcases List.mem_cons.1 hmem with he | hmem
  · exact he
  · have hge := (List.pairwise_cons.1 hle).1 _ hmem
    omega

/-- A generated batch is as promised where the counters agree and the sequence sets are nested. -/
theorem generated_promised_iff {batch : LlamaBatch} (hmax : 0 < nSeqMax)
    (htokens : batch.validTokens nVocab = true) (hids : batch.validSeqIds nSeqMax = true)
    (hpos : batch.hasPos = false) (h : batch.fill mem outputAll = some xs) :
    Promised batch nVocab nSeqMax mem xs ↔ Nested xs ∧
      Aligned (MayStart batch.hasToken mem) (LlamaBatch.firstPos mem) (fun _ => false)
        batch.seqIds := by
  obtain ⟨_, ps, hps, _, hzip⟩ := LlamaBatch.fill_spec h
  rw [LlamaBatch.positions, hpos, if_neg Bool.false_ne_true] at hps
  rw [aligned_iff hps]
  simp only [← posOf_eq_placed hzip, GoesOn, Bool.false_eq_true, if_false]
  constructor
  · intro hp
    refine ⟨hp.nested, fun s q hq => ?_⟩
    have hl : posOf xs s = q :: (posOf xs s).tail := List.eq_cons_of_mem_head? hq
    have hsorted := hp.ordered s
    have hgap := hp.gapless s
    have hmay := hp.continues s (by rw [hl]; exact List.cons_ne_nil _ _)
    rw [hl] at hsorted hgap
    rw [seqPosMin_cons hl hsorted] at hmay
    exact ⟨hmay, onward_iff.2 ⟨hsorted, hgap⟩⟩
  · rintro ⟨hnested, hgoes⟩
    have hlist (s : Nat) : (posOf xs s).Pairwise (· ≤ ·) ∧ Gapless (posOf xs s) ∧
        (posOf xs s ≠ [] → MayStart batch.hasToken mem s (seqPosMin xs s)) := by
      cases hl : posOf xs s with
      | nil =>
        exact ⟨List.Pairwise.nil, fun a ha => (List.not_mem_nil ha).elim, fun h => (h rfl).elim⟩
      | cons q l =>
        obtain ⟨hmay, honward⟩ := hgoes s q (by rw [hl]; rfl)
        rw [hl, List.tail_cons] at honward
        obtain ⟨hsorted, hgap⟩ := onward_iff.1 honward
        refine ⟨hsorted, hgap, fun _ => ?_⟩
        rw [seqPosMin_cons hl hsorted]
        exact hmay
    refine ⟨fun hhas e he => ?_, fun x hx s hs => ?_, fun s => (hlist s).2.1,
      fun s => (hlist s).2.2, fun s => (hlist s).1, hnested⟩
    · exact LlamaBatch.tokens_valid htokens hhas he
    · exact LlamaBatch.seqIds_lt hmax hids (LlamaBatch.mem_seqIds h hx) hs

/-- Two tokens of the first sequence; the positions are generated. -/
def twoEntries : LlamaBatch where
  entries := [⟨7, 0, [0], true⟩, ⟨8, 0, [0], true⟩]
  hasToken := true
  hasPos := false
  hasSeqId := true
  hasLogits := true

def emptyMemory : Memory := ⟨fun _ => -1, fun _ => -1⟩

/-- The positions 1 and 0 of one sequence. -/
def backwards : LlamaBatch where
  entries := [⟨7, 1, [0], true⟩, ⟨8, 0, [0], true⟩]
  hasToken := true
  hasPos := true
  hasSeqId := true
  hasLogits := true

end ActQuant.Batch
