import ActQuant.Batch.SplitSpec
import ActQuant.Lib.Lists

namespace ActQuant.Batch.Allocr
open ActQuant.Lib

variable {b : Allocr}

/-! `split_equal`: which sequence sets it finds, and how far it takes each. -/

/-- Different sets that are each of an unused token. -/
structure Found (b : Allocr) (used : Finset Nat) (sets : List (Finset Nat)) : Prop where
  apart : sets.Pairwise Disjoint
  unused : ∀ c ∈ sets, ∃ i < b.nTokens, i ∉ used ∧ b.seqSet i = c

theorem Found.nodup (hb : b.Seated) (h : b.Found used sets) : sets.Nodup := by
  refine h.apart.imp_of_mem fun {c d} hc _ hcd => ?_
  rintro rfl
  obtain ⟨i, hi, _, rfl⟩ := h.unused c hc
  exact (hb i hi).ne_empty (Finset.disjoint_self_iff_empty _ |>.1 hcd)

theorem Found.disjoint (h : b.Found used sets) (hc : c ∈ sets) (hd : d ∈ sets) (hne : c ≠ d) :
    Disjoint c d :=
  have : Std.Symm (Disjoint : Finset Nat → Finset Nat → Prop) := ⟨fun _ _ h => h.symm⟩
  h.apart.forall hc hd hne

theorem setsLoop_found {l : List Nat} (hl : ∀ i ∈ l, i < b.nTokens) (h : b.Found used sets) :
    b.Found used (b.setsLoop n sequential used l sets last) := by
  induction l generalizing sets last with
  | nil => exact h
  | cons i l ih =>
    obtain ⟨hi, hl⟩ := List.forall_mem_cons.1 hl
    rw [setsLoop]
    split
    · case isTrue hadd =>
      obtain ⟨hout, hdisj, _⟩ := hadd
      have hnext : b.Found used (sets ++ [b.seqSet i]) := by
        refine ⟨List.pairwise_append.2 ⟨h.apart, List.pairwise_singleton _ _, ?_⟩, fun c hc => ?_⟩
        · intro c hc d hd
          rw [List.mem_singleton.1 hd]
          exact Finset.disjoint_iff_inter_eq_empty.2 (hdisj c hc)
        · rcases List.mem_append.1 hc with hc | hc
          · exact h.unused c hc
          · exact ⟨i, hi, hout, (List.mem_singleton.1 hc).symm⟩
      split
      · exact hnext
      · exact ih hl hnext
    · exact ih hl h

theorem setsLoop_keeps (b : Allocr) (n : Nat) (sequential : Bool) (used : Finset Nat)
    (l : List Nat) (sets : List (Finset Nat)) (last : Int) :
    sets <+: b.setsLoop n sequential used l sets last := by
  induction l generalizing sets last with
  | nil => exact List.prefix_rfl
  | cons i l ih =>
    rw [setsLoop]
    split
    · split
      · exact List.prefix_append _ _
      · exact (List.prefix_append _ _).trans (ih _ _)
    · exact ih _ _

/-- Nothing is found only where all is used: the first unused token takes part. -/
theorem used_of_setsLoop_nil {l : List Nat}
    (h : b.setsLoop n sequential used l [] last = []) : ∀ i ∈ l, i ∈ used := by
  induction l generalizing last with
  | nil => exact fun _ hi => (List.not_mem_nil hi).elim
  | cons i l ih =>
    rw [setsLoop] at h
    split at h
    · have hin : b.seqSet i ∈ ([] : List (Finset Nat)) := by
        split at h
        · exact h ▸ List.mem_cons_self
        · exact h ▸ (setsLoop_keeps b n sequential used l _ _).subset List.mem_cons_self
      exact (List.not_mem_nil hin).elim
    · case isFalse hno =>
      rw [List.forall_mem_cons]
      refine ⟨?_, ih h⟩
      by_contra hout
      exact hno ⟨hout, fun _ hc => (List.not_mem_nil hc).elim, fun _ => .inl rfl⟩

theorem curSeqSets_found (b : Allocr) (n : Nat) (sequential : Bool) (used : Finset Nat) :
    b.Found used (b.curSeqSets n sequential used) :=
  setsLoop_found (fun _ => List.mem_range.1) ⟨.nil, fun _ hc => (List.not_mem_nil hc).elim⟩

theorem used_of_curSeqSets (h : b.curSeqSets n sequential used = []) :
    Finset.range b.nTokens ⊆ used :=
  fun _ hi => used_of_setsLoop_nil h _ (List.mem_range.2 (Finset.mem_range.1 hi))

/-- The unused tokens of a set. -/
def unusedOf (b : Allocr) (used : Finset Nat) (c : Finset Nat) : List Nat :=
  (b.seqSetMap c).filter (· ∉ used)

theorem mem_unusedOf : i ∈ b.unusedOf used c ↔ i < b.nTokens ∧ b.seqSet i = c ∧ i ∉ used := by
  rw [unusedOf, seqSetMap, List.mem_filter, List.mem_filter, List.mem_range, decide_eq_true_eq,
    decide_eq_true_eq, and_assoc]

theorem unusedOf_sorted (b : Allocr) (used c : Finset Nat) :
    (b.unusedOf used c).Pairwise (· < ·) :=
  (List.pairwise_lt_range.filter _).filter _

/-- Of each set the first tokens are used. -/
def Fronts (b : Allocr) (used : Finset Nat) : Prop :=
  ∀ j ∈ used, ∀ i < j, b.seqSet i = b.seqSet j → i ∈ used

theorem dropWhile_used (hu : b.Fronts used) (c : Finset Nat) :
    (b.seqSetMap c).dropWhile (· ∈ used) = b.unusedOf used c := by
  have hsorted : (b.seqSetMap c).Pairwise fun i j => j ∈ used → i ∈ used := by
    rw [seqSetMap]
    refine (List.pairwise_lt_range.filter _).imp_of_mem fun {i j} hi hj hlt hin => ?_
    rw [List.mem_filter, decide_eq_true_eq] at hi hj
    exact hu j hin i hlt (hi.2.trans hj.2.symm)
  rw [dropWhile_eq_filter (p := fun i => decide (i ∈ used)) (hsorted.imp fun h => ?_), unusedOf]
  · exact List.filter_congr fun i _ => (decide_not).symm
  · exact fun hj => decide_eq_true (h (of_decide_eq_true hj))

/-- How far the sets are taken: every one so far, within the size, and no further than that. -/
structure Depth (n k : Nat) (lens : List Nat) (depth : Nat) : Prop where
  within : ∀ len ∈ lens, depth ≤ len
  fits : depth ≤ 1 ∨ depth * k ≤ n
  most : depth ∈ lens ∨ 1 ≤ depth ∧ n < (depth + 1) * k

/-- The queues of the sets after so many tokens of each. -/
def after (queues : List (List Nat)) (t : Nat) : List (List Nat × List Nat) :=
  queues.map fun q => (q.take t, q.drop t)

theorem expandLoop_spec {queues : List (List Nat)} (hne : queues ≠ [])
    (hwithin : ∀ q ∈ queues, t ≤ q.length) (hfits : t ≤ 1 ∨ t * queues.length ≤ n)
    (hnext : t = 0 ∨ (t + 1) * queues.length ≤ n) (hfuel : ∀ q ∈ queues, q.length ≤ fuel + t) :
    ∃ depth, expandLoop n fuel (after queues t) = after queues depth ∧
      Depth n queues.length (queues.map List.length) depth := by
  induction fuel generalizing t with
  | zero =>
    obtain ⟨q, hq⟩ := List.exists_mem_of_ne_nil _ hne
    have he : q.length = t := by
      have := hwithin q hq
      have := hfuel q hq
      omega
    exact ⟨t, rfl, List.forall_mem_map.2 hwithin, hfits, .inl (List.mem_map.2 ⟨q, hq, he⟩)⟩
  | succ fuel ih =>
    rw [expandLoop]
    split
    · case isTrue hall =>
      have hmore : ∀ q ∈ queues, t + 1 ≤ q.length := by
        intro q hq
        have hdrop := hall _ (List.mem_map.2 ⟨q, hq, rfl⟩)
        rw [ne_eq, List.drop_eq_nil_iff] at hdrop
        omega
      have hmoved : (after queues t).map (fun g => (g.1 ++ g.2.take 1, g.2.drop 1)) =
          after queues (t + 1) := by
        rw [after, List.map_map]
        refine List.map_congr_left fun q _ => ?_
        rw [Function.comp_apply, ← List.take_add, List.drop_drop]
      have hhead : ((after queues (t + 1)).head?.elim 0 fun g => g.1.length) = t + 1 := by
        cases queues with
        | nil => exact (hne rfl).elim
        | cons q _ =>
          exact List.length_take_of_le (hmore q List.mem_cons_self)
      have hlen : (after queues (t + 1)).length = queues.length := List.length_map _
      dsimp only
      rw [hmoved, hhead, hlen]
      have hfits' : t + 1 ≤ 1 ∨ (t + 1) * queues.length ≤ n := by
        rcases hnext with rfl | h
        · exact .inl (Nat.le_refl _)
        · exact .inr h
      split
      · case isTrue hfull =>
        exact ⟨t + 1, rfl, List.forall_mem_map.2 hmore, hfits', .inr ⟨by omega, hfull⟩⟩
      · case isFalse hroom =>
        exact ih hmore hfits' (.inr (by omega)) fun q hq => by have := hfuel q hq; omega
    · case isFalse hsome =>
      push Not at hsome
      obtain ⟨g, hg, hnil⟩ := hsome
      obtain ⟨q, hq, rfl⟩ := List.mem_map.1 hg
      rw [List.drop_eq_nil_iff] at hnil
      have he : q.length = t := Nat.le_antisymm hnil (hwithin q hq)
      exact ⟨t, rfl, List.forall_mem_map.2 hwithin, hfits, .inl (List.mem_map.2 ⟨q, hq, he⟩)⟩

/-- The lengths of what is unused of each set. -/
def left (b : Allocr) (used : Finset Nat) (sets : List (Finset Nat)) : List Nat :=
  sets.map fun c => (b.unusedOf used c).length

theorem left_pos (h : b.Found used sets) : ∀ len ∈ b.left used sets, 1 ≤ len := by
  intro len hlen
  obtain ⟨c, hc, rfl⟩ := List.mem_map.1 hlen
  obtain ⟨i, hi, hout, he⟩ := h.unused c hc
  exact List.length_pos_of_mem (mem_unusedOf.2 ⟨hi, he, hout⟩)

/-- Of each set `split_equal` takes the same number of unused tokens. -/
theorem idxsPerSeq_spec (hu : b.Fronts used) (hne : b.curSeqSets n sequential used ≠ []) :
    ∃ depth, 1 ≤ depth ∧
      b.idxsPerSeq n sequential used =
        (b.curSeqSets n sequential used).map (fun c => (b.unusedOf used c).take depth) ∧
      Depth n (b.curSeqSets n sequential used).length
        (b.left used (b.curSeqSets n sequential used)) depth := by
  have hstart : ((b.curSeqSets n sequential used).map fun c =>
      (([] : List Nat), (b.seqSetMap c).dropWhile (· ∈ used))) =
      after ((b.curSeqSets n sequential used).map (b.unusedOf used)) 0 := by
    rw [after, List.map_map]
    refine List.map_congr_left fun c _ => ?_
    rw [Function.comp_apply, List.take_zero, List.drop_zero, dropWhile_used hu]
  have hfuel : ∀ q ∈ (b.curSeqSets n sequential used).map (b.unusedOf used),
      q.length ≤ b.nTokens + 0 := by
    refine List.forall_mem_map.2 fun c _ => ?_
    rw [unusedOf, seqSetMap]
    refine (List.length_filter_le _ _).trans ((List.length_filter_le _ _).trans ?_)
    rw [List.length_range]
    exact Nat.le_refl _
  obtain ⟨depth, he, hdepth⟩ := expandLoop_spec (n := n) (t := 0)
    (fun hnil => hne (List.map_eq_nil_iff.1 hnil)) (fun _ _ => Nat.zero_le _)
    (.inl (Nat.zero_le 1)) (.inl rfl) hfuel
  rw [List.length_map, List.map_map] at hdepth
  refine ⟨depth, ?_, ?_, hdepth⟩
  · rcases hdepth.most with hlen | ⟨hone, _⟩
    · exact left_pos (b.curSeqSets_found n sequential used) _ hlen
    · exact hone
  · rw [idxsPerSeq, hstart, he, after, List.map_map, List.map_map]
    rfl

/-- The index is among those taken of its set. -/
theorem mem_groups {sets : List (Finset Nat)} :
    i ∈ (sets.map fun c => (b.unusedOf used c).take depth).flatten ↔
      b.seqSet i ∈ sets ∧ i ∈ (b.unusedOf used (b.seqSet i)).take depth := by
  rw [List.mem_flatten]
  constructor
  · rintro ⟨g, hg, hi⟩
    obtain ⟨c, hc, rfl⟩ := List.mem_map.1 hg
    obtain ⟨_, he, _⟩ := mem_unusedOf.1 (List.mem_of_mem_take hi)
    rw [he]
    exact ⟨hc, hi⟩
  · rintro ⟨hc, hi⟩
    exact ⟨_, List.mem_map.2 ⟨_, hc, rfl⟩, hi⟩

theorem groups_nodup {sets : List (Finset Nat)} (hsets : sets.Nodup) :
    (sets.map fun c => (b.unusedOf used c).take depth).flatten.Nodup := by
  rw [List.nodup_flatten]
  constructor
  · refine List.forall_mem_map.2 fun c _ => ?_
    exact ((b.unusedOf_sorted used c).imp Nat.ne_of_lt).sublist (List.take_sublist _ _)
  · refine List.pairwise_map.2 (hsets.imp fun hne i hi hj => hne ?_)
    obtain ⟨_, hc, _⟩ := mem_unusedOf.1 (List.mem_of_mem_take hi)
    obtain ⟨_, hd, _⟩ := mem_unusedOf.1 (List.mem_of_mem_take hj)
    exact hc.symm.trans hd

/-- The calls with this kind of split go on to the end of the batch. -/
def Runs (b : Allocr) (sequential : Bool) : Prop := sequential = true → hasCpl b.tokens = false

theorem idxs_equal (hr : b.Runs sequential) (n : Nat) (used : Finset Nat) :
    b.idxs n used (.equal sequential) = (b.idxsPerSeq n sequential used).flatten := by
  rw [idxs, if_neg]
  rw [Bool.and_eq_true, not_and]
  exact fun hs hc => Bool.false_ne_true ((hr hs).symm.trans hc)

theorem idxsPerSeq_nil (h : b.curSeqSets n sequential used = []) :
    b.idxsPerSeq n sequential used = [] := by
  have hloop : ∀ fuel, expandLoop n fuel [] = [] := by
    intro fuel
    induction fuel with
    | zero => rfl
    | succ fuel ih =>
      rw [expandLoop, if_pos fun _ h => (List.not_mem_nil h).elim]
      dsimp only
      rw [List.map_nil, ih, ite_self]
  rw [idxsPerSeq, h, List.map_nil, hloop, List.map_nil]

theorem picks_equal (hb : b.Seated) (hr : b.Runs sequential) (n : Nat) :
    Picks (fun used => b.idxs n used (.equal sequential)) (Finset.range b.nTokens) b.Fronts where
  nodup := by
    intro used hu
    rw [idxs_equal hr]
    by_cases hne : b.curSeqSets n sequential used = []
    · rw [idxsPerSeq_nil hne]
      exact List.nodup_nil
    · obtain ⟨depth, _, he, _⟩ := idxsPerSeq_spec hu hne
      rw [he]
      exact groups_nodup ((b.curSeqSets_found n sequential used).nodup hb)
  fresh := by
    intro used hu i hi
    rw [idxs_equal hr] at hi
    by_cases hne : b.curSeqSets n sequential used = []
    · rw [idxsPerSeq_nil hne] at hi
      exact (List.not_mem_nil hi).elim
    · obtain ⟨depth, _, he, _⟩ := idxsPerSeq_spec hu hne
      rw [he, mem_groups] at hi
      obtain ⟨hlt, _, hout⟩ := mem_unusedOf.1 (List.mem_of_mem_take hi.2)
      exact ⟨Finset.mem_range.2 hlt, hout⟩
  stop := by
    intro used hu hnil
    rw [idxs_equal hr] at hnil
    by_contra hmore
    have hne : b.curSeqSets n sequential used ≠ [] := fun h => hmore (used_of_curSeqSets h)
    obtain ⟨depth, hone, he, _⟩ := idxsPerSeq_spec hu hne
    rw [he] at hnil
    obtain ⟨c, hc⟩ := List.exists_mem_of_ne_nil _ hne
    obtain ⟨i, hi, hout, rfl⟩ := (b.curSeqSets_found n sequential used).unused c hc
    have hmem : (b.unusedOf used (b.seqSet i)).take depth = [] :=
      List.flatten_eq_nil_iff.1 hnil _ (List.mem_map.2 ⟨_, hc, rfl⟩)
    rcases List.take_eq_nil_iff.1 hmem with rfl | hempty
    · exact Nat.not_succ_le_zero 0 hone
    · exact List.ne_nil_of_mem (mem_unusedOf.2 ⟨hi, rfl, hout⟩) hempty
  step := by
    intro used hu j hj i hlt hset
    rw [idxs_equal hr] at hj ⊢
    by_cases hne : b.curSeqSets n sequential used = []
    · rw [idxsPerSeq_nil hne, List.flatten_nil, List.toFinset_nil, Finset.union_empty] at hj ⊢
      exact hu j hj i hlt hset
    · obtain ⟨depth, _, he, _⟩ := idxsPerSeq_spec hu hne
      rw [he, Finset.mem_union, List.mem_toFinset, mem_groups] at hj ⊢
      by_cases hin : i ∈ used
      · exact .inl hin
      · rcases hj with hj | ⟨hc, hj⟩
        · exact .inl (hu j hj i hlt hset)
        · rw [hset]
          refine .inr ⟨hc, mem_take_of_lt (b.unusedOf_sorted used _) hj ?_ hlt⟩
          obtain ⟨hjlt, _⟩ := mem_unusedOf.1 (List.mem_of_mem_take hj)
          exact mem_unusedOf.2 ⟨hlt.trans hjlt, hset, hin⟩

/-- The tokens of the call, set by set: equally many of each, and the sets have no sequence in
common. -/
structure EqualSets (b : Allocr) (idxs : List Nat) (groups : List (List Nat)) (len : Nat) :
    Prop where
  parts : idxs = groups.flatten
  length : ∀ g ∈ groups, g.length = len
  alike : ∀ g ∈ groups, ∀ i ∈ g, ∀ j ∈ g, b.seqSet i = b.seqSet j
  apart : groups.Pairwise fun g h => ∀ i ∈ g, ∀ j ∈ h, ¬ b.Shares i j

theorem equal_sets (hr : b.Runs sequential) (hu : b.Fronts used)
    (hne : b.idxs n used (.equal sequential) ≠ []) :
    1 ≤ b.nSeqs n used (.equal sequential) ∧ ∃ groups len,
      groups.length = b.nSeqs n used (.equal sequential) ∧
      b.EqualSets (b.idxs n used (.equal sequential)) groups len := by
  rw [idxs_equal hr] at hne ⊢
  have hsets : b.curSeqSets n sequential used ≠ [] := by
    intro hnil
    rw [idxsPerSeq_nil hnil] at hne
    exact hne rfl
  obtain ⟨depth, _, he, hdepth⟩ := idxsPerSeq_spec hu hsets
  rw [nSeqs, he]
  refine ⟨List.length_pos_iff.2 hsets, _, depth, List.length_map _, rfl, ?_, ?_, ?_⟩
  · refine List.forall_mem_map.2 fun c hc => List.length_take_of_le ?_
    exact hdepth.within _ (List.mem_map.2 ⟨c, hc, rfl⟩)
  · refine List.forall_mem_map.2 fun c _ i hi j hj => ?_
    obtain ⟨_, hi, _⟩ := mem_unusedOf.1 (List.mem_of_mem_take hi)
    obtain ⟨_, hj, _⟩ := mem_unusedOf.1 (List.mem_of_mem_take hj)
    exact hi.trans hj.symm
  · refine List.pairwise_map.2 ((b.curSeqSets_found n sequential used).apart.imp ?_)
    rintro c d hcd i hi j hj ⟨s, hsi, hsj⟩
    obtain ⟨_, rfl, _⟩ := mem_unusedOf.1 (List.mem_of_mem_take hi)
    obtain ⟨_, rfl, _⟩ := mem_unusedOf.1 (List.mem_of_mem_take hj)
    exact Finset.disjoint_left.1 hcd hsi hsj

theorem equal_small_iff (hr : b.Runs sequential) (hu : b.Fronts used) :
    (b.idxs n used (.equal sequential)).length ≤ n ↔
      (b.curSeqSets n sequential used).length ≤ n := by
  rw [idxs_equal hr]
  by_cases hne : b.curSeqSets n sequential used = []
  · rw [idxsPerSeq_nil hne, hne]
    exact iff_of_true (Nat.zero_le n) (Nat.zero_le n)
  · obtain ⟨depth, hone, he, hdepth⟩ := idxsPerSeq_spec hu hne
    have hlen : ((b.curSeqSets n sequential used).map fun c =>
        (b.unusedOf used c).take depth).flatten.length =
        depth * (b.curSeqSets n sequential used).length := by
      rw [List.length_flatten, List.map_map, List.map_congr_left (g := fun _ => depth),
        List.map_const', List.sum_replicate_nat, Nat.mul_comm]
      intro c hc
      exact List.length_take_of_le (hdepth.within _ (List.mem_map.2 ⟨c, hc, rfl⟩))
    rw [he, hlen]
    constructor
    · exact fun h => (Nat.le_mul_of_pos_left _ hone).trans h
    · intro h
      rcases hdepth.fits with hle | hfits
      · have hdepth : depth = 1 := Nat.le_antisymm hle hone
        rw [hdepth, Nat.one_mul]
        exact h
      · exact hfits

/-- As far as the sets can all be taken, no unused token of another set that shares a sequence
stands in front. -/
def Unblocked (b : Allocr) (n : Nat) (sequential : Bool) (used : Finset Nat) : Prop :=
  ∀ depth, (∀ len ∈ b.left used (b.curSeqSets n sequential used), depth ≤ len) →
    (depth ≤ 1 ∨ depth * (b.curSeqSets n sequential used).length ≤ n) →
    ∀ c ∈ b.curSeqSets n sequential used, ∀ j ∈ (b.unusedOf used c).take depth,
      ∀ i < j, i ∉ used → b.Shares i j → b.seqSet i = c

theorem equal_noJump_iff (hr : b.Runs sequential) (hu : b.Fronts used) :
    NoJump (Finset.range b.nTokens) b.Shares used (b.idxs n used (.equal sequential)) ↔
      b.Unblocked n sequential used := by
  rw [idxs_equal hr]
  by_cases hne : b.curSeqSets n sequential used = []
  · rw [idxsPerSeq_nil hne, Unblocked, hne]
    refine iff_of_true ⟨.nil, fun _ h => (List.not_mem_nil h).elim⟩ fun _ _ _ _ h => ?_
    exact (List.not_mem_nil h).elim
  · obtain ⟨depth, hone, he, hdepth⟩ := idxsPerSeq_spec hu hne
    have hfound := b.curSeqSets_found n sequential used
    rw [he]
    constructor
    · rintro ⟨_, hjump⟩ k hwithin hfits c hc j hj i hlt hout hs
      have hk : k ≤ depth := by
        rcases hdepth.most with hlen | ⟨_, hfull⟩
        · exact hwithin _ hlen
        · rcases hfits with hk | hk
          · exact hk.trans hone
          · exact Nat.le_of_lt_succ (Nat.lt_of_mul_lt_mul_right (hk.trans_lt hfull))
      have hj' := List.take_subset_take_left _ hk hj
      obtain ⟨hjlt, rfl, _⟩ := mem_unusedOf.1 (List.mem_of_mem_take hj)
      have hin := hjump j (mem_groups.2 ⟨hc, hj'⟩) i (Finset.mem_range.2 (hlt.trans hjlt)) hlt hs
      obtain ⟨hi, _⟩ := mem_groups.1 (hin.resolve_left hout)
      by_contra hset
      obtain ⟨s, hsi, hsj⟩ := hs
      exact Finset.disjoint_left.1 (hfound.disjoint hi hc hset) hsi hsj
    · intro h
      have hown : ∀ j, b.seqSet j ∈ b.curSeqSets n sequential used →
          j ∈ (b.unusedOf used (b.seqSet j)).take depth → ∀ i < j, i ∉ used → b.Shares i j →
            i ∈ (b.unusedOf used (b.seqSet j)).take depth := by
        intro j hc hj i hlt hout hs
        have hset := h depth hdepth.within hdepth.fits _ hc j hj i hlt hout hs
        obtain ⟨hjlt, _⟩ := mem_unusedOf.1 (List.mem_of_mem_take hj)
        exact mem_take_of_lt (b.unusedOf_sorted used _) hj
          (mem_unusedOf.2 ⟨hlt.trans hjlt, hset, hout⟩) hlt
      refine ⟨?_, fun j hj i _ hlt hs => ?_⟩
      · refine List.pairwise_flatten.2 ⟨?_, ?_⟩
        · refine List.forall_mem_map.2 fun c _ => ?_
          exact sorted_shares ((b.unusedOf_sorted used c).sublist (List.take_sublist _ _))
        · refine List.pairwise_map.2 (hfound.apart.imp ?_)
          rintro c d hcd i hi j hj ⟨s, hsi, hsj⟩
          obtain ⟨_, rfl, _⟩ := mem_unusedOf.1 (List.mem_of_mem_take hi)
          obtain ⟨_, rfl, _⟩ := mem_unusedOf.1 (List.mem_of_mem_take hj)
          exact (Finset.disjoint_left.1 hcd hsi hsj).elim
      · by_cases hout : i ∈ used
        · exact .inl hout
        · obtain ⟨hc, hj⟩ := mem_groups.1 hj
          have hi := hown j hc hj i hlt hout hs
          obtain ⟨_, hset, _⟩ := mem_unusedOf.1 (List.mem_of_mem_take hi)
          exact .inr (mem_groups.2 (hset ▸ ⟨hc, hi⟩))

end ActQuant.Batch.Allocr
