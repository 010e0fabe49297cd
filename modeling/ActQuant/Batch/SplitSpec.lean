import ActQuant.Batch.InitSpec
import ActQuant.Lib.Rounds

namespace ActQuant.Batch.Allocr
open ActQuant.Lib

variable {b : Allocr}

/-- Two tokens of one sequence. -/
def Shares (b : Allocr) (i j : Nat) : Prop := ∃ s, s ∈ b.seqSet i ∧ s ∈ b.seqSet j

theorem Shares.symm (h : b.Shares i j) : b.Shares j i := by
  obtain ⟨s, hi, hj⟩ := h
  exact ⟨s, hj, hi⟩

/-- Every token is in a sequence. -/
def Seated (b : Allocr) : Prop := ∀ i < b.nTokens, (b.seqSet i).Nonempty

/-! The search for a token. -/

theorem firstUnused_none (h : b.firstUnused used = none) : Finset.range b.nTokens ⊆ used := by
  intro i hi
  rw [firstUnused, List.find?_eq_none] at h
  have hno := h i (List.mem_range.2 (Finset.mem_range.1 hi))
  rw [decide_eq_true_eq, not_not] at hno
  exact hno

theorem firstUnused_some (h : b.firstUnused used = some i) :
    i < b.nTokens ∧ i ∉ used ∧ ∀ j < i, j ∈ used := by
  rw [firstUnused, List.find?_range_eq_some] at h
  obtain ⟨hi, hlt, hbefore⟩ := h
  refine ⟨List.mem_range.1 hlt, by simpa using hi, fun j hj => ?_⟩
  have hno := hbefore j hj
  rw [Bool.not_eq_true', decide_eq_false_iff_not, not_not] at hno
  exact hno

/-! `split_simple`. -/

theorem simpleLoop_eq (n left cur : Nat) (idxs : List Nat) :
    simpleLoop n left cur idxs =
      idxs ++ List.range' cur (min left (max 1 (n - idxs.length))) := by
  induction left generalizing cur idxs with
  | zero => rw [simpleLoop, Nat.zero_min, List.range'_zero, List.append_nil]
  | succ left ih =>
    rw [simpleLoop, List.length_append, List.length_singleton]
    split
    · case isTrue hfull =>
      have hone : min (left + 1) (max 1 (n - idxs.length)) = 1 := by omega
      rw [hone, List.range'_one]
    · case isFalse hmore =>
      have hstep : min (left + 1) (max 1 (n - idxs.length)) =
          min left (max 1 (n - (idxs.length + 1))) + 1 := by omega
      rw [ih, hstep, List.range'_succ, List.append_assoc, List.length_append,
        List.length_singleton, List.singleton_append]

theorem splitSimple_range (hm : m ≤ b.nTokens) (n : Nat) :
    b.splitSimple n (Finset.range m) =
      List.range' m (min (b.nTokens - m) (max 1 n)) := by
  rw [splitSimple]
  cases hf : b.firstUnused (Finset.range m) with
  | none =>
    have hsub := Finset.range_subset_range.1 (firstUnused_none hf)
    have hzero : b.nTokens - m = 0 := by omega
    rw [Option.elim_none, hzero, Nat.zero_min, List.range'_zero]
  | some cur =>
    obtain ⟨hlt, hout, hbefore⟩ := firstUnused_some hf
    rw [Finset.mem_range] at hout
    have hcur : cur = m := by
      by_contra hne
      have hin := hbefore m (by omega)
      exact (Finset.notMem_range_self hin).elim
    rw [Option.elim_some, hcur, simpleLoop_eq, List.nil_append, List.length_nil, Nat.sub_zero]

/-- The used tokens are the first ones. -/
def Front (b : Allocr) (used : Finset Nat) : Prop := ∃ m ≤ b.nTokens, used = Finset.range m

theorem range_union_range' (m k : Nat) :
    Finset.range m ∪ (List.range' m k).toFinset = Finset.range (m + k) := by
  ext i
  rw [Finset.mem_union, List.mem_toFinset, List.mem_range'_1, Finset.mem_range, Finset.mem_range]
  omega

theorem picks_simple (b : Allocr) (hn : 1 ≤ n) :
    Picks (fun used => b.idxs n used .simple) (Finset.range b.nTokens) b.Front where
  nodup := by
    rintro _ ⟨m, hm, rfl⟩
    rw [idxs, splitSimple_range hm]
    exact List.nodup_range'
  fresh := by
    rintro _ ⟨m, hm, rfl⟩ i hi
    rw [idxs, splitSimple_range hm, List.mem_range'_1] at hi
    rw [Finset.mem_range, Finset.mem_range]
    omega
  stop := by
    rintro _ ⟨m, hm, rfl⟩ hnil
    rw [idxs, splitSimple_range hm, List.range'_eq_nil_iff] at hnil
    rw [Finset.range_subset_range]
    omega
  step := by
    rintro _ ⟨m, hm, rfl⟩
    rw [idxs, splitSimple_range hm, range_union_range']
    exact ⟨_, by omega, rfl⟩

theorem simple_small (hu : b.Front used) (hn : 1 ≤ n) : (b.idxs n used .simple).length ≤ n := by
  obtain ⟨m, hm, rfl⟩ := hu
  rw [idxs, splitSimple_range hm, List.length_range']
  omega

theorem simple_noJump (hu : b.Front used) (n : Nat) :
    NoJump (Finset.range b.nTokens) b.Shares used (b.idxs n used .simple) := by
  obtain ⟨m, hm, rfl⟩ := hu
  rw [idxs, splitSimple_range hm]
  refine ⟨sorted_shares (List.pairwise_lt_range' 1), fun j hj i _ hlt _ => ?_⟩
  rw [List.mem_range'_1] at hj
  rw [Finset.mem_range, List.mem_range'_1]
  omega

/-! `split_seq`. -/

/-- Behind a token with this set no token is passed over that shares a sequence with one that is
then taken. -/
def Descends (b : Allocr) (n : Nat) (used : Finset Nat) :
    List Nat → Finset Nat → Nat → List Nat → Prop
  | [], _, _, _ => True
  | i :: rest, cur, taken, passed =>
    if i ∈ used then Descends b n used rest cur taken passed
    else if ¬ b.seqSet i ⊆ cur then Descends b n used rest cur taken (i :: passed)
    else (∀ a ∈ passed, ¬ b.Shares a i) ∧
      (taken + 1 < n → Descends b n used rest (b.seqSet i) (taken + 1) passed)

theorem seqLoop_sublist (b : Allocr) (n : Nat) (used : Finset Nat) (rest : List Nat)
    (cur : Finset Nat) (idxs : List Nat) :
    ∃ ys, b.seqLoop n used rest cur idxs = idxs ++ ys ∧ ys.Sublist rest ∧ (∀ i ∈ ys, i ∉ used) ∧
      (idxs.length < n → idxs.length + ys.length ≤ n) := by
  induction rest generalizing cur idxs with
  | nil =>
    exact ⟨[], (List.append_nil _).symm, .slnil, fun _ h => (List.not_mem_nil h).elim, Nat.le_of_lt⟩
  | cons i rest ih =>
    rw [seqLoop]
    split
    · obtain ⟨ys, he, hsub, hnew, hlen⟩ := ih cur idxs
      exact ⟨ys, he, hsub.cons _, hnew, hlen⟩
    · case isFalse hin =>
      rw [not_or, not_not] at hin
      obtain ⟨hin, _⟩ := hin
      split
      · refine ⟨[i], rfl, (List.nil_sublist rest).cons_cons i, fun j hj => ?_, fun h => h⟩
        rw [List.mem_singleton.1 hj]
        exact hin
      · case isFalse hmore =>
        obtain ⟨ys, he, hsub, hnew, hlen⟩ := ih (b.seqSet i) (idxs ++ [i])
        rw [List.length_append, List.length_singleton] at hmore hlen
        refine ⟨i :: ys, ?_, hsub.cons_cons i, fun j hj => ?_, fun _ => ?_⟩
        · rw [he, List.append_assoc, List.singleton_append]
        · rcases List.mem_cons.1 hj with rfl | hj
          · exact hin
          · exact hnew j hj
        · rw [List.length_cons]
          have := hlen (by omega)
          omega

theorem descends_iff {rest idxs : List Nat} (hsorted : rest.Pairwise (· < ·))
    (hys : b.seqLoop n used rest cur idxs = idxs ++ ys) :
    b.Descends n used rest cur idxs.length passed ↔ ∀ j ∈ ys, (∀ a ∈ passed, ¬ b.Shares a j) ∧
      ∀ a ∈ rest, a < j → a ∉ used → b.Shares a j → a ∈ ys := by
  induction rest generalizing cur idxs passed ys with
  | nil =>
    rw [seqLoop] at hys
    rw [List.self_eq_append_right.1 hys]
    exact iff_of_true trivial fun _ h => (List.not_mem_nil h).elim
  | cons i rest ih =>
    obtain ⟨hfirst, hrest⟩ := List.pairwise_cons.1 hsorted
    rw [seqLoop] at hys
    rw [Descends]
    by_cases hused : i ∈ used
    · rw [if_pos (.inl hused)] at hys
      rw [if_pos hused, ih hrest hys]
      refine forall₂_congr fun j _ => and_congr_right fun _ => ⟨fun h a ha => ?_, fun h a ha => ?_⟩
      · rcases List.mem_cons.1 ha with rfl | ha
        · exact fun _ hno => (hno hused).elim
        · exact h a ha
      · exact h a (List.mem_cons_of_mem _ ha)
    · rw [if_neg hused]
      by_cases hsub : b.seqSet i ⊆ cur
      · rw [if_neg (not_or.2 ⟨hused, not_not.2 hsub⟩)] at hys
        rw [if_neg (not_not.2 hsub)]
        by_cases hfull : n ≤ (idxs ++ [i]).length
        · rw [if_pos hfull] at hys
          rw [← List.append_cancel_left hys]
          rw [List.length_append, List.length_singleton] at hfull
          rw [List.forall_mem_singleton]
          refine and_congr_right fun _ => iff_of_true (fun h => by omega) fun a ha hlt => ?_
          rcases List.mem_cons.1 ha with rfl | ha
          · exact (Nat.lt_irrefl _ hlt).elim
          · exact (Nat.lt_asymm hlt (hfirst a ha)).elim
        · obtain ⟨zs, hzs, hsublist, _⟩ :=
            seqLoop_sublist b n used rest (b.seqSet i) (idxs ++ [i])
          rw [if_neg hfull, hzs, List.append_assoc] at hys
          rw [← List.append_cancel_left hys, List.singleton_append, List.forall_mem_cons]
          rw [List.length_append, List.length_singleton] at hfull
          have hrec : b.Descends n used rest _ _ passed ↔ _ := ih hrest hzs
          rw [List.length_append, List.length_singleton] at hrec
          rw [forall_prop_of_true (by omega), hrec]
          refine and_congr ⟨fun h => ⟨h, fun a ha hlt => ?_⟩, fun h => h.1⟩
            (forall₂_congr fun j hj => and_congr_right fun _ => ?_)
          · rcases List.mem_cons.1 ha with rfl | ha
            · exact (Nat.lt_irrefl _ hlt).elim
            · exact (Nat.lt_asymm hlt (hfirst a ha)).elim
          · constructor
            · intro h a ha hlt hno hs
              rcases List.mem_cons.1 ha with rfl | ha
              · exact List.mem_cons_self
              · exact List.mem_cons_of_mem _ (h a ha hlt hno hs)
            · intro h a ha hlt hno hs
              rcases List.mem_cons.1 (h a (List.mem_cons_of_mem _ ha) hlt hno hs) with rfl | hin
              · exact (Nat.lt_irrefl _ (hfirst _ ha)).elim
              · exact hin
      · obtain ⟨zs, hzs, hsublist, _⟩ := seqLoop_sublist b n used rest cur idxs
        rw [if_pos (.inr hsub)] at hys
        have he : zs = ys := List.append_cancel_left (hzs.symm.trans hys)
        rw [if_pos hsub, ih hrest hys]
        refine forall₂_congr fun j hj => ?_
        have hjrest : j ∈ rest := hsublist.subset (he ▸ hj)
        have hout : i ∉ ys := fun hin => Nat.lt_irrefl _ (hfirst i (hsublist.subset (he ▸ hin)))
        constructor
        · rintro ⟨hpassed, hbetween⟩
          refine ⟨fun a ha => hpassed a (List.mem_cons_of_mem _ ha), fun a ha hlt hno hs => ?_⟩
          rcases List.mem_cons.1 ha with rfl | ha
          · exact (hpassed a List.mem_cons_self hs).elim
          · exact hbetween a ha hlt hno hs
        · rintro ⟨hpassed, hbetween⟩
          refine ⟨fun a ha hs => ?_, fun a ha => hbetween a (List.mem_cons_of_mem _ ha)⟩
          rcases List.mem_cons.1 ha with rfl | ha
          · exact hout (hbetween a List.mem_cons_self (hfirst j hjrest) hused hs)
          · exact hpassed a ha hs

/-- The tokens behind this one. -/
def behind (b : Allocr) (i : Nat) : List Nat := List.range' (i + 1) (b.nTokens - (i + 1))

theorem mem_behind : j ∈ b.behind i ↔ i < j ∧ j < b.nTokens := by
  rw [behind, List.mem_range'_1]
  omega

theorem behind_sorted (b : Allocr) (i : Nat) : (b.behind i).Pairwise (· < ·) :=
  List.pairwise_lt_range' 1

/-- `split_seq` takes the first unused token and then some of those behind it. -/
theorem splitSeq_spec (hf : b.firstUnused used = some cur) (n : Nat) :
    ∃ ys, b.splitSeq n used = cur :: ys ∧ ys.Sublist (b.behind cur) ∧ (∀ i ∈ ys, i ∉ used) ∧
      (1 ≤ n → (cur :: ys).length ≤ n) ∧
      (n ≤ 1 → ys = []) ∧
      (1 < n → b.seqLoop n used (b.behind cur) (b.seqSet cur) [cur] = [cur] ++ ys) := by
  obtain ⟨ys, he, hsub, hnew, hlen⟩ :=
    seqLoop_sublist b n used (b.behind cur) (b.seqSet cur) [cur]
  rw [splitSeq, hf, Option.elim_some, ← behind]
  by_cases hn : n ≤ 1
  · refine ⟨[], if_pos hn, List.nil_sublist _, fun _ h => (List.not_mem_nil h).elim, id,
      fun _ => rfl, fun h => by omega⟩
  · rw [if_neg hn]
    rw [List.length_singleton] at hlen
    refine ⟨ys, he, hsub, hnew, fun _ => ?_, fun h => (hn h).elim, fun _ => he⟩
    rw [List.length_cons]
    have := hlen (by omega)
    omega

theorem cons_sorted {ys : List Nat} (h : ys.Sublist (b.behind cur)) :
    (cur :: ys).Pairwise (· < ·) :=
  List.pairwise_cons.2 ⟨fun _ hj => (mem_behind.1 (h.subset hj)).1, (b.behind_sorted cur).sublist h⟩

theorem picks_seq (b : Allocr) (n : Nat) :
    Picks (fun used => b.idxs n used .seq) (Finset.range b.nTokens) fun _ => True where
  nodup := by
    intro used _
    rw [idxs]
    cases hf : b.firstUnused used with
    | none => rw [splitSeq, hf]; exact List.nodup_nil
    | some cur =>
      obtain ⟨ys, he, hsub, _⟩ := splitSeq_spec hf n
      rw [he]
      exact (cons_sorted hsub).imp Nat.ne_of_lt
  fresh := by
    intro used _ i hi
    rw [idxs] at hi
    cases hf : b.firstUnused used with
    | none => rw [splitSeq, hf] at hi; exact (List.not_mem_nil hi).elim
    | some cur =>
      obtain ⟨ys, he, hsub, hnew, _⟩ := splitSeq_spec hf n
      obtain ⟨hlt, hout, _⟩ := firstUnused_some hf
      rw [he] at hi
      rcases List.mem_cons.1 hi with rfl | hi
      · exact ⟨Finset.mem_range.2 hlt, hout⟩
      · exact ⟨Finset.mem_range.2 (mem_behind.1 (hsub.subset hi)).2, hnew i hi⟩
  stop := by
    intro used _ hnil
    rw [idxs] at hnil
    cases hf : b.firstUnused used with
    | none => exact firstUnused_none hf
    | some cur =>
      obtain ⟨ys, he, _⟩ := splitSeq_spec hf n
      exact (List.cons_ne_nil _ _ (he.symm.trans hnil)).elim
  step := fun _ _ => trivial

theorem seq_small (b : Allocr) (used : Finset Nat) (hn : 1 ≤ n) :
    (b.idxs n used .seq).length ≤ n := by
  rw [idxs]
  cases hf : b.firstUnused used with
  | none => rw [splitSeq, hf]; exact Nat.zero_le n
  | some cur =>
    obtain ⟨ys, he, _, _, hlen, _⟩ := splitSeq_spec hf n
    rw [he]
    exact hlen hn

theorem seq_noJump_iff (b : Allocr) (n : Nat) (used : Finset Nat) :
    NoJump (Finset.range b.nTokens) b.Shares used (b.idxs n used .seq) ↔
      ∀ cur ∈ b.firstUnused used, 1 < n →
        b.Descends n used (b.behind cur) (b.seqSet cur) 1 [] := by
  rw [idxs]
  cases hf : b.firstUnused used with
  | none =>
    rw [splitSeq, hf, Option.elim_none]
    refine iff_of_true ⟨.nil, fun _ h => (List.not_mem_nil h).elim⟩ fun cur hcur => ?_
    exact (Option.not_mem_none cur hcur).elim
  | some cur =>
    obtain ⟨ys, he, hsub, _, _, hone, hloop⟩ := splitSeq_spec hf n
    obtain ⟨_, _, hbefore⟩ := firstUnused_some hf
    rw [he]
    constructor
    · rintro ⟨_, hjump⟩ i hi hn
      obtain rfl := Option.some.inj (Option.mem_def.1 hi)
      refine (descends_iff (behind_sorted b cur) (hloop hn)).2 fun j hj => ?_
      refine ⟨fun a ha => (List.not_mem_nil ha).elim, fun a ha hlt hno hs => ?_⟩
      obtain ⟨hgt, ha⟩ := mem_behind.1 ha
      rcases hjump j (List.mem_cons_of_mem _ hj) a (Finset.mem_range.2 ha) hlt hs with hin | hin
      · exact (hno hin).elim
      · rcases List.mem_cons.1 hin with rfl | hin
        · exact (Nat.lt_irrefl _ hgt).elim
        · exact hin
    · intro h
      refine ⟨sorted_shares (cons_sorted hsub), fun j hj a ha hlt hs => ?_⟩
      rw [Finset.mem_range] at ha
      by_cases hused : a ∈ used
      · exact .inl hused
      refine .inr ?_
      rcases Nat.lt_trichotomy a cur with hac | rfl | hac
      · exact (hused (hbefore a hac)).elim
      · exact List.mem_cons_self
      · rcases List.mem_cons.1 hj with rfl | hj
        · exact (Nat.lt_asymm hlt hac).elim
        · have hn : 1 < n := by
            by_contra hle
            rw [hone (by omega)] at hj
            exact (List.not_mem_nil hj).elim
          obtain ⟨_, hbetween⟩ :=
            (descends_iff (behind_sorted b cur) (hloop hn)).1 (h cur rfl hn) j hj
          exact List.mem_cons_of_mem _ (hbetween a (mem_behind.2 ⟨hac, ha⟩) hlt hused hs)

end ActQuant.Batch.Allocr
