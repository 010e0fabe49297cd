import ActQuant.Lib.Lists
import ActQuant.Sampling.Truthful

namespace ActQuant.Sampling
open ActQuant.Lib Floats Sorters

/-! The filters that sort only what they have to keep what they would keep of all tokens sorted. -/

theorem take_eq_of_take {l l' : List α} (h : l.take k = l'.take k) (hj : j ≤ k) :
    l.take j = l'.take j := by
  have htake := congrArg (List.take j) h
  rwa [List.take_take, List.take_take, Nat.min_eq_left hj] at htake

section Best
variable [Floats F] {data s kept : List (TokenData F)}

/-- A prefix of the tokens in non-increasing order of their logits. -/
def Best (data kept : List (TokenData F)) : Prop :=
  ∃ s : List (TokenData F), s.Perm data ∧ Descending s ∧ kept <+: s

theorem best_take (hs : s.Perm data) (hd : Descending s) (n : Nat) : Best data (s.take n) :=
  ⟨s, hs, hd, List.take_prefix n s⟩

theorem Best.take (h : Best data kept) (n : Nat) : Best data (kept.take n) := by
  obtain ⟨s, hs, hd, hkept⟩ := h
  exact ⟨s, hs, hd, (List.take_prefix n kept).trans hkept⟩

theorem Best.perm (h : Best data kept) (hdata : data.Perm data') : Best data' kept := by
  obtain ⟨s, hs, hd, hkept⟩ := h
  exact ⟨s, hs.trans hdata, hd, hkept⟩

theorem Best.perm_of_length (h : Best data kept) (hlen : kept.length = data.length) :
    kept.Perm data := by
  obtain ⟨s, hs, _, hkept⟩ := h
  rwa [hkept.eq_of_length (hlen.trans hs.length_eq.symm)]

/-- Two arrangements in order have the same logits. -/
theorem Descending.logits_eq (h : Descending s) (h' : Descending s') (hperm : s.Perm s') :
    s.map (·.logit) = s'.map (·.logit) :=
  (hperm.map _).eq_of_pairwise (fun _ _ _ _ hab hba => le_antisymm hba hab) (descending_iff.1 h)
    (descending_iff.1 h')

/-- As many of the best tokens have the same logits, whichever they are. -/
theorem Best.logits_eq (h : Best data kept) (h' : Best data kept')
    (hlen : kept.length = kept'.length) : kept.map (·.logit) = kept'.map (·.logit) := by
  obtain ⟨s, hs, hd, hkept⟩ := h
  obtain ⟨s', hs', hd', hkept'⟩ := h'
  have hlogits := hd.logits_eq hd' (hs.trans hs'.symm)
  rw [List.prefix_iff_eq_take.1 hkept, List.prefix_iff_eq_take.1 hkept', hlen, List.map_take,
    List.map_take, hlogits]

theorem descending_append (hs : Descending s) (hs' : Descending s')
    (h : ∀ a ∈ s, ∀ b ∈ s', b.logit ≤ a.logit) : Descending (s ++ s') :=
  List.pairwise_append.2 ⟨hs, hs', h⟩

/-- The tokens above a bucket, those in it and those below it. -/
theorem perm_split (data : List (TokenData F)) (ib : Nat) :
    ((data.filter fun t => ib + 1 ≤ bucketIdx t.logit) ++ bucket data ib ++
      data.filter fun t => bucketIdx t.logit < ib).Perm data := by
  have hsplit := perm_filter_le (fun t : TokenData F => bucketIdx t.logit) data ib
  have hnot : (data.filter fun t => bucketIdx t.logit < ib) =
      data.filter fun t => !decide (ib ≤ bucketIdx t.logit) := by
    apply List.filter_congr
    intro t _
    by_cases h : bucketIdx t.logit < ib
    · rw [decide_eq_true h, decide_eq_false (by omega), Bool.not_false]
    · rw [decide_eq_false h, decide_eq_true (by omega), Bool.not_true]
  rw [hnot]
  exact (hsplit.symm.append_right _).trans (List.filter_append_perm _ data)

section
variable [Sorters F] [LawfulSorters F]

theorem best_partialSort (h : n ≤ data.length) : Best data ((partialSort n data).take n) := by
  refine ⟨(partialSort n data).take n ++ sort ((partialSort n data).drop n), ?_, ?_,
    List.prefix_append _ _⟩
  · have hrest := LawfulSorters.sort_perm ((partialSort n data).drop n)
    have hall := hrest.append_left ((partialSort n data).take n)
    rw [List.take_append_drop] at hall
    exact hall.trans (LawfulSorters.partialSort_perm n data)
  · apply descending_append (LawfulSorters.partialSort_descending n data h)
      (LawfulSorters.sort_descending _)
    intro a ha b hb
    exact LawfulSorters.partialSort_top n data h a ha b (mem_sort.1 hb)

variable [LawfulFloats F]

theorem best_partialSortBuckets (hnum : ∀ t ∈ data, Numbered t.logit) (h₀ : 0 < n)
    (h : n ≤ data.length) :
    Best data ((partialSortBuckets data n).take n) := by
  obtain ⟨ib, hib, heq, hlt, hle⟩ := partialSortBuckets_split h₀ h
  have hfit : n - (sortedAbove data ib).length ≤ (bucket data ib).length := by omega
  obtain ⟨s, hs, hd, hkept⟩ := best_partialSort hfit
  rw [heq, List.take_append, List.take_of_length_le (Nat.le_of_lt hlt)]
  refine ⟨sortedAbove data ib ++ s ++ sort (data.filter fun t => bucketIdx t.logit < ib),
    ?_, ?_, ?_⟩
  · exact (((perm_sortedAbove hib).append hs).append (LawfulSorters.sort_perm _)).trans
      (perm_split data ib)
  · apply descending_append (descending_append (sortedAbove_descending hnum ib) hd ?_)
      (LawfulSorters.sort_descending _)
    · intro a ha b hb
      rw [mem_sort, List.mem_filter, decide_eq_true_eq] at hb
      apply le_of_bucketIdx_lt (hnum b hb.1)
      rcases List.mem_append.1 ha with ha | ha
      · have hmem := (perm_sortedAbove hib).mem_iff.1 ha
        rw [List.mem_filter, decide_eq_true_eq] at hmem
        omega
      · have hmem := mem_bucket.1 (hs.mem_iff.1 ha)
        omega
    · intro a ha b hb
      have hmem := (perm_sortedAbove hib).mem_iff.1 ha
      rw [List.mem_filter, decide_eq_true_eq] at hmem
      have hbucket := mem_bucket.1 (hs.mem_iff.1 hb)
      apply le_of_bucketIdx_lt (hnum b hbucket.1)
      omega
  · rw [List.append_assoc]
    exact (List.prefix_append_right_inj _).2 (hkept.trans (List.prefix_append _ _))

/-- The partial sort keeps the largest logits, on both its paths. -/
theorem best_partialSortInplace {cur : Cands F}
    (hnum : 128 < n → ∀ t ∈ cur.data, Numbered t.logit) (h : n ≤ cur.size) :
    Best cur.data (partialSortInplace cur n).data := by
  rw [partialSortInplace]
  split
  case isTrue => exact best_partialSort h
  case isFalse => exact best_partialSortBuckets (hnum (by omega)) (by omega) h

theorem topKImpl_best {cur : Cands F} (hsorted : cur.Truthful)
    (hnum : 128 < cur.size → ∀ t ∈ cur.data, Numbered t.logit) (hk : 0 < k) :
    Best cur.data (topKImpl cur k).data ∧ (topKImpl cur k).size = min k.toNat cur.size := by
  have hle := Nat.min_le_right k.toNat cur.size
  rw [topKImpl, if_neg (by omega)]
  by_cases hflag : cur.sorted = true
  · simp only [hflag, if_true]
    refine ⟨best_take (.refl _) (hsorted hflag) _, ?_⟩
    rw [Cands.size, List.length_take]
    exact Nat.min_eq_left hle
  · simp only [hflag, Bool.false_eq_true, if_false]
    refine ⟨(best_partialSortInplace (fun hlarge => hnum (by omega)) hle).take _, ?_⟩
    have hsize := partialSortInplace_size hle
    rw [Cands.size] at hsize
    rw [Cands.size, List.length_take, hsize, Nat.min_self]

end

end Best

section TopP
variable [Floats F] {data s kept : List (TokenData F)}

/-- The sum of the probabilities of some tokens. -/
def prob (l : List (TokenData F)) : F := l.foldl (fun sum t => add sum t.p) (ofRat 0)

/-- A prefix reaches a probability and has as many tokens as are kept at least. -/
def Reaches (p : F) (minKeep : Nat) (s : List (TokenData F)) (n : Nat) : Prop :=
  p ≤ prob (s.take n) ∧ minKeep ≤ n

/-- The length of the shortest prefix that is not empty and reaches a probability, or of all tokens
where no shorter prefix does. -/
structure Nucleus (p : F) (minKeep : Nat) (s : List (TokenData F)) (n : Nat) : Prop where
  pos : 0 < n
  le : n ≤ s.length
  reaches : n < s.length → Reaches p minKeep s n
  shortest : ∀ m, 0 < m → m < n → ¬ Reaches p minKeep s m

theorem prob_take_succ (h : i < s.length) :
    prob (s.take (i + 1)) = add (prob (s.take i)) (probAt s i) := by
  rw [prob, List.take_succ_eq_append_getElem h, List.foldl_append, probAt,
    List.getElem?_eq_getElem h]
  rfl

/-- The probabilities are a function of the logits. -/
def ByLogit (data : List (TokenData F)) : Prop := ∃ g : F → F, ∀ t ∈ data, t.p = g t.logit

omit [Floats F] in
theorem ByLogit.perm (h : ByLogit data) (hs : s.Perm data) : ByLogit s := by
  obtain ⟨g, hg⟩ := h
  exact ⟨g, fun t ht => hg t (hs.mem_iff.1 ht)⟩

theorem byLogit_setProbs (maxL : F) (data : List (TokenData F)) : ByLogit (setProbs maxL data) := by
  refine ⟨fun logit => div (exp (sub logit maxL))
    ((data.map fun t => { t with p := exp (sub t.logit maxL) }).foldl
      (fun s t => add s t.p) (ofRat 0)), ?_⟩
  intro t ht
  rw [setProbs, List.map_map] at ht
  obtain ⟨u, _, rfl⟩ := List.mem_map.1 ht
  rfl

/-- Two arrangements in order have the same probabilities. -/
theorem probs_eq (hby : ByLogit data) (hs : s.Perm data) (hd : Descending s) (hs' : s'.Perm data)
    (hd' : Descending s') : s.map (·.p) = s'.map (·.p) := by
  obtain ⟨g, hg⟩ := hby
  have hmap (l : List (TokenData F)) (hl : l.Perm data) :
      l.map (·.p) = (l.map (·.logit)).map g := by
    rw [List.map_map]
    exact List.map_congr_left fun t ht => hg t (hl.mem_iff.1 ht)
  rw [hmap s hs, hmap s' hs', hd.logits_eq hd' (hs.trans hs'.symm)]

theorem prob_take_congr {s' : List (TokenData F)} (h : s.map (·.p) = s'.map (·.p)) (n : Nat) :
    prob (s.take n) = prob (s'.take n) := by
  have hprob (l : List (TokenData F)) : prob l = (l.map (·.p)).foldl add (ofRat 0) := by
    rw [prob, List.foldl_map]
  rw [hprob, hprob, List.map_take, List.map_take, h]

/-- What top-p takes: the shortest prefix of an arrangement of the tokens. -/
def TakesNucleus (p : F) (minKeep : Nat) (data : List (TokenData F))
    (r : Nat × List (TokenData F)) : Prop :=
  ∃ s : List (TokenData F), s.Perm data ∧ Descending s ∧ Nucleus p minKeep s r.1 ∧
    r.2.take r.1 = s.take r.1

variable [Sorters F] [LawfulSorters F] [LawfulFloats F]

/-- Part of the tokens is sorted as it is in an arrangement of all of them. -/
theorem exists_arrangement (hnum : ∀ t ∈ data, Numbered t.logit) (h₀ : 0 < n)
    (h : n ≤ data.length) :
    ∃ s : List (TokenData F), s.Perm data ∧ Descending s ∧
      (partialSortBuckets data n).take n = s.take n := by
  obtain ⟨s, hs, hd, hprefix⟩ := best_partialSortBuckets hnum h₀ h
  have htake := List.prefix_iff_eq_take.1 hprefix
  rw [List.length_take, Nat.min_eq_left (length_partialSortBuckets h₀ h)] at htake
  exact ⟨s, hs, hd, htake⟩

/-- The loop of top-p over a part that is sorted: it ends with the shortest prefix of this
arrangement of the tokens, or of the one it makes when the part is not enough. -/
theorem topPLoop_nucleus {cur : Cands F} {pdata : List (TokenData F)} (hby : ByLogit cur.data)
    (hnum : cur.sorted = false → ∀ t ∈ cur.data, Numbered t.logit)
    (hpos : 0 < cur.size) (hk : k ≤ cur.size) (hi : i + n = cur.size)
    (hik : i < k ∨ n = 0 ∧ i ≤ k) (hflag : cur.sorted = true → k = cur.size)
    (hs : s.Perm cur.data) (hd : Descending s) (hpdata : pdata.take k = s.take k)
    (hnone : ∀ m, 0 < m → m ≤ i → ¬ Reaches p minKeep s m) :
    TakesNucleus p minKeep cur.data (topPLoop p minKeep cur n i k (prob (s.take i)) pdata) := by
  induction n generalizing i k s pdata with
  | zero =>
    have hend : i = cur.size := hi
    have hlen : s.length = cur.size := hs.length_eq
    rw [topPLoop]
    refine ⟨s, hs, hd, ⟨by omega, by omega, fun hlt => by omega, ?_⟩,
      take_eq_of_take hpdata (by omega)⟩
    exact fun m hm hlt => hnone m hm (Nat.le_of_lt hlt)
  | succ n ih =>
    have hlt : i < k := hik.resolve_right fun h => Nat.succ_ne_zero n h.1
    have hlen : s.length = cur.size := hs.length_eq
    have hprobAt : probAt pdata i = probAt s i := by
      have h := congrArg (·[i]?) (take_eq_of_take hpdata hlt)
      simp only [List.getElem?_take_of_lt (Nat.lt_succ_self i)] at h
      rw [probAt, probAt, h]
    rw [topPLoop, hprobAt, ← prob_take_succ (by omega)]
    by_cases hstop : p ≤ prob (s.take (i + 1)) ∧ minKeep ≤ i + 1
    · simp only [if_pos hstop]
      refine ⟨s, hs, hd, ⟨Nat.succ_pos i, by omega, fun _ => hstop, ?_⟩, take_eq_of_take hpdata hlt⟩
      exact fun m hm hlt => hnone m hm (Nat.le_of_lt_succ hlt)
    · have hnone' : ∀ m, 0 < m → m ≤ i + 1 → ¬ Reaches p minKeep s m := by
        intro m hm hle
        rcases Nat.lt_or_eq_of_le hle with hlt | rfl
        · exact hnone m hm (Nat.le_of_lt_succ hlt)
        · exact hstop
      simp only [if_neg hstop]
      split
      case isTrue hgrow =>
        -- the whole is sorted anew: other tokens, but the same probabilities at each place
        have hall : cur.size ≤ cur.data.length := Nat.le_refl _
        obtain ⟨s', hs', hd', htake'⟩ := exists_arrangement
          (hnum (Bool.eq_false_of_not_eq_true hgrow.1)) hpos hall
        have hprob := prob_take_congr (probs_eq hby hs hd hs' hd')
        rw [hprob]
        apply ih (Nat.le_refl _) (by omega) (by omega) (fun _ => rfl) hs' hd' htake'
        intro m hm hle hreaches
        rw [Reaches, ← hprob] at hreaches
        exact hnone' m hm hle hreaches
      case isFalse hgrow =>
        refine ih hk (by omega) ?_ hflag hs hd hpdata hnone'
        by_cases hsorted : cur.sorted = true
        · have := hflag hsorted
          omega
        · have hne : i + 1 ≠ k := fun heq => hgrow ⟨hsorted, heq⟩
          exact .inl (by omega)

theorem topPApply_nucleus {cur : Cands F} (hne : cur.data ≠ []) (hsorted : cur.Truthful)
    (hnum : 128 < cur.size → ∀ t ∈ cur.data, Numbered t.logit)
    (hp : ¬ ofRat 1 ≤ p) (minKeep : Nat) :
    ∃ out, topPApply p minKeep cur = some out ∧
      ∃ s : List (TokenData F), s.Perm (setProbs (maxLogit cur.sorted cur.data) cur.data) ∧
        Descending s ∧ ∃ n, Nucleus p minKeep s n ∧ out.data = s.take n := by
  have hsoft : softmaxImpl cur false =
      some { cur with data := setProbs (maxLogit cur.sorted cur.data) cur.data } := by
    rw [softmaxImpl, if_neg hne, if_neg (by simp)]
  have hby := byLogit_setProbs (maxLogit cur.sorted cur.data) cur.data
  have hpos : 0 < (setProbs (maxLogit cur.sorted cur.data) cur.data).length := by
    rw [setProbs_length]
    exact List.length_pos_iff.2 hne
  have hdesc (h : cur.sorted = true) := (hsorted h).setProbs (maxLogit cur.sorted cur.data)
  have hnum' : 128 < (setProbs (maxLogit cur.sorted cur.data) cur.data).length →
      ∀ t ∈ setProbs (maxLogit cur.sorted cur.data) cur.data, Numbered t.logit := by
    rw [setProbs_length]
    intro hlarge t ht
    have hlogit := List.mem_map_of_mem (f := (·.logit)) ht
    rw [setProbs_logits] at hlogit
    obtain ⟨u, hu, heq⟩ := List.mem_map.1 hlogit
    exact heq ▸ hnum hlarge u hu
  rw [topPApply, if_neg hp, hsoft, Option.map_some]
  generalize setProbs (maxLogit cur.sorted cur.data) cur.data = data at *
  refine ⟨_, rfl, ?_⟩
  generalize hcur₁ : ({ cur with data := data } : Cands F) = cur₁
  have hdata : cur₁.data = data := by rw [← hcur₁]
  have hflag : cur₁.sorted = cur.sorted := by rw [← hcur₁]
  rw [← hflag] at hdesc
  rw [← hdata] at hby hpos hdesc hnum' ⊢
  have hnone (s : List (TokenData F)) : ∀ m, 0 < m → m ≤ 0 → ¬ Reaches p minKeep s m :=
    fun m hm hle => by omega
  by_cases hlarge : ¬ cur₁.sorted ∧ 1024 < cur₁.size
  · have hk : min 256 cur₁.size ≤ cur₁.size := Nat.min_le_right _ _
    have hk₀ : 0 < min 256 cur₁.size := by omega
    have hk' : min 256 cur₁.size ≤ cur₁.data.length := hk
    have hlogits := hnum' (Nat.lt_trans (by decide) hlarge.2)
    obtain ⟨s, hs, hd, htake⟩ := exists_arrangement hlogits hk₀ hk'
    obtain ⟨s', hs', hd', hn, hout⟩ := topPLoop_nucleus hby (fun _ => hlogits) hpos hk
      (Nat.zero_add _)
      (.inl (by omega)) (fun h => absurd h hlarge.1) hs hd htake (hnone s)
    have hcond : ¬ (¬ cur₁.sorted ∧ ¬ (¬ cur₁.sorted ∧ 1024 < cur₁.size)) := fun hc => hc.2 hlarge
    simp only [if_pos hlarge, if_neg hcond]
    exact ⟨s', hs', hd', _, hn, hout⟩
  · by_cases hs : cur₁.sorted = true
    · obtain ⟨s', hs', hd', hn, hout⟩ := topPLoop_nucleus hby
        (fun h => absurd hs (Bool.eq_false_iff.1 h)) hpos (Nat.le_refl _) (Nat.zero_add _)
        (.inl hpos) (fun _ => rfl) (.refl cur₁.data) (hdesc hs) rfl (hnone cur₁.data)
      have hcond : ¬ (¬ cur₁.sorted ∧ ¬ (¬ cur₁.sorted ∧ 1024 < cur₁.size)) := fun hc => hc.1 hs
      simp only [if_neg hlarge, if_neg hcond]
      exact ⟨s', hs', hd', _, hn, hout⟩
    · -- few tokens are sorted in place
      have hcond : ¬ cur₁.sorted ∧ ¬ (¬ cur₁.sorted ∧ 1024 < cur₁.size) := ⟨hs, hlarge⟩
      have hsize := partialSortInplace_size (Nat.le_refl cur₁.size)
      have hbest := best_partialSortInplace (n := cur₁.size) hnum' (Nat.le_refl _)
      have hperm := hbest.perm_of_length hsize
      have hdesc₂ := partialSortInplace_descending (n := cur₁.size) hnum' (Nat.le_refl _)
      have hflag₂ := partialSortInplace_sorted cur₁ cur₁.size
      simp only [if_neg hlarge, if_pos hcond]
      generalize partialSortInplace cur₁ cur₁.size = cur₂ at *
      rw [← hsize]
      obtain ⟨s', hs', hd', hn, hout⟩ := topPLoop_nucleus (hby.perm hperm)
        (fun h => absurd hflag₂ (Bool.eq_false_iff.1 h)) (by rw [hsize]; exact hpos)
        (Nat.le_refl _) (Nat.zero_add _)
        (.inl (by rw [hsize]; exact hpos)) (fun _ => rfl) (.refl cur₂.data) hdesc₂ rfl
        (hnone cur₂.data)
      exact ⟨s', hs'.trans hperm, hd', _, hn, hout⟩

end TopP

section MinP
variable [Floats F] {data kept : List (TokenData F)}

/-- The tokens whose logit is at most as far below the highest one as the threshold allows. -/
def within (p : F) (data : List (TokenData F)) : List (TokenData F) :=
  data.filter fun t => add (maxLogit false data) (log p) ≤ t.logit

/-- What min-p keeps: exactly the tokens within the threshold, where there are any and enough of
them, and else the best ones, of which it keeps at least one. -/
structure KeepsWithin (p : F) (minKeep : Nat) (data kept : List (TokenData F)) : Prop where
  enough : within p data ≠ [] → minKeep ≤ (within p data).length → kept.Perm (within p data)
  tooFew : ¬ (within p data ≠ [] ∧ minKeep ≤ (within p data).length) →
    Best data kept ∧ kept.length = max 1 (min minKeep data.length)

/-- The highest logit is that of a token, and none is higher. -/
theorem maxLogit_spec (hne : data ≠ []) :
    (∃ t ∈ data, maxLogit false data = t.logit) ∧ ∀ t ∈ data, t.logit ≤ maxLogit false data := by
  cases data with
  | nil => exact absurd rfl hne
  | cons first rest =>
    obtain ⟨hle, hall, heq⟩ := foldl_max_spec rest first.logit
    refine ⟨?_, List.forall_mem_cons.2 ⟨hle, hall⟩⟩
    rcases heq with heq | ⟨t, ht, heq⟩
    · exact ⟨first, .head _, heq⟩
    · exact ⟨t, .tail _ ht, heq⟩

theorem maxLogit_perm (h : data.Perm data') : maxLogit false data = maxLogit false data' := by
  by_cases hne : data = []
  · subst hne
    rw [h.nil_eq]
  · have hne' : data' ≠ [] := fun hnil => hne (by rw [hnil] at h; exact h.eq_nil)
    obtain ⟨⟨t, ht, heq⟩, hall⟩ := maxLogit_spec hne
    obtain ⟨⟨t', ht', heq'⟩, hall'⟩ := maxLogit_spec hne'
    apply le_antisymm
    · rw [heq]
      exact hall' t (h.mem_iff.1 ht)
    · rw [heq']
      exact hall t' (h.mem_iff.2 ht')

/-- The loop for the highest logit starts below all of them. -/
theorem foldl_max_eq (hne : data ≠ []) (h : ∀ t ∈ data, low ≤ t.logit) :
    data.foldl (fun m t => max m t.logit) low = maxLogit false data := by
  cases data with
  | nil => exact absurd rfl hne
  | cons first rest =>
    rw [List.foldl_cons, max_eq_right (h first (.head _))]
    rfl

theorem within_perm (h : data.Perm data') : (within p data).Perm (within p data') := by
  rw [within, within, maxLogit_perm h]
  exact h.filter _

/-- In order, the tokens from a logit on are those in front. -/
theorem filter_descending (hd : Descending data) (minLogit : F) :
    (data.filter fun t => minLogit ≤ t.logit) =
      data.take (data.filter fun t => minLogit ≤ t.logit).length := by
  induction data with
  | nil => rfl
  | cons t data ih =>
    obtain ⟨ht, hd⟩ := List.pairwise_cons.1 hd
    by_cases hle : minLogit ≤ t.logit
    · rw [List.filter_cons_of_pos (by simpa using hle), List.length_cons, List.take_succ_cons,
        ← ih hd]
    · have hnone : (data.filter fun t => minLogit ≤ t.logit) = [] := by
        rw [List.filter_eq_nil_iff]
        intro u hu hge
        exact hle (le_trans (of_decide_eq_true hge) (ht u hu))
      rw [List.filter_cons_of_neg (by simpa using hle), hnone]
      rfl

theorem minPCount_eq (minLogit : F) (minKeep : Nat) (hd : Descending data) (i : Nat) :
    minPCount minLogit minKeep i data =
      max (i + (data.filter fun t => minLogit ≤ t.logit).length)
        (min minKeep (i + data.length)) := by
  induction data generalizing i with
  | nil =>
    rw [minPCount, List.filter_nil, List.length_nil]
    omega
  | cons t data ih =>
    obtain ⟨ht, hd⟩ := List.pairwise_cons.1 hd
    rw [minPCount, ih hd, List.length_cons]
    by_cases hle : minLogit ≤ t.logit
    · rw [if_neg fun h => absurd h.1 (not_lt.2 hle), List.filter_cons_of_pos (by simpa using hle),
        List.length_cons]
      omega
    · have hnone : (data.filter fun t => minLogit ≤ t.logit) = [] := by
        rw [List.filter_eq_nil_iff]
        intro u hu hge
        exact hle (le_trans (of_decide_eq_true hge) (ht u hu))
      rw [List.filter_cons_of_neg (by simpa using hle), hnone, List.length_nil]
      split
      case isTrue h =>
        have := h.2
        omega
      case isFalse h =>
        have : ¬ minKeep ≤ i := fun hi => h ⟨not_le.1 hle, hi⟩
        omega

/-- The sorted implementation. -/
theorem take_minPCount {first : TokenData F} {rest : List (TokenData F)}
    (hd : Descending (first :: rest)) (p : F) (minKeep : Nat) :
    KeepsWithin p minKeep (first :: rest)
      ((first :: rest).take (minPCount (add first.logit (log p)) minKeep 1 rest)) := by
  have hmax : maxLogit false (first :: rest) = first.logit := hd.maxLogit_eq.symm
  have hrest := (List.pairwise_cons.1 hd).2
  have hle := List.length_filter_le (fun t : TokenData F => add first.logit (log p) ≤ t.logit) rest
  have hfilter := filter_descending hd (add first.logit (log p))
  have hwithin : within p (first :: rest) =
      (first :: rest).filter fun t => add first.logit (log p) ≤ t.logit := by
    rw [within, hmax]
  rw [minPCount_eq _ _ hrest]
  by_cases hfirst : add first.logit (log p) ≤ first.logit
  · have hlen : (within p (first :: rest)).length =
        1 + (rest.filter fun t => add first.logit (log p) ≤ t.logit).length := by
      rw [hwithin, List.filter_cons_of_pos (by simpa using hfirst), List.length_cons, Nat.add_comm]
    rw [← hwithin] at hfilter
    rw [← hlen]
    constructor
    case enough =>
      intro _ henough
      rw [max_eq_left (by omega), ← hfilter]
    case tooFew =>
      intro hfew
      have hne : within p (first :: rest) ≠ [] := fun hnil => by
        rw [hnil, List.length_nil] at hlen
        omega
      have hlt : ¬ minKeep ≤ (within p (first :: rest)).length := fun h => hfew ⟨hne, h⟩
      refine ⟨best_take (.refl _) hd _, ?_⟩
      rw [List.length_take, List.length_cons]
      omega
  · have hnone : within p (first :: rest) = [] := by
      rw [hwithin, List.filter_eq_nil_iff]
      intro t ht hge
      apply hfirst (le_trans (of_decide_eq_true hge) _)
      rcases List.mem_cons.1 ht with rfl | ht
      · exact le_refl _
      · exact (List.pairwise_cons.1 hd).1 t ht
    have hzero : (rest.filter fun t => add first.logit (log p) ≤ t.logit).length = 0 := by
      rw [hwithin, List.filter_cons_of_neg (by simpa using hfirst)] at hnone
      rw [hnone, List.length_nil]
    constructor
    case enough => exact fun hne => absurd hnone hne
    case tooFew =>
      intro _
      refine ⟨best_take (.refl _) hd _, ?_⟩
      rw [hzero, List.length_take, List.length_cons]
      omega

theorem KeepsWithin.perm (h : KeepsWithin p minKeep data kept) (hdata : data.Perm data') :
    KeepsWithin p minKeep data' kept := by
  have hwithin := within_perm (p := p) hdata
  have hnil : within p data = [] ↔ within p data' = [] := by
    rw [← List.length_eq_zero_iff, ← List.length_eq_zero_iff, hwithin.length_eq]
  constructor
  case enough =>
    intro hne henough
    rw [Ne, ← hnil] at hne
    rw [← hwithin.length_eq] at henough
    exact (h.enough hne henough).trans hwithin
  case tooFew =>
    intro hfew
    rw [Ne, ← hnil, ← hwithin.length_eq] at hfew
    obtain ⟨hbest, hlen⟩ := h.tooFew hfew
    exact ⟨hbest.perm hdata, by rw [hlen, hdata.length_eq]⟩

/-- What is kept is determined, up to tokens of the same logit. -/
theorem KeepsWithin.logits (h : KeepsWithin p minKeep data kept)
    (h' : KeepsWithin p minKeep data kept') :
    (kept.map (·.logit)).Perm (kept'.map (·.logit)) := by
  by_cases henough : within p data ≠ [] ∧ minKeep ≤ (within p data).length
  · exact ((h.enough henough.1 henough.2).trans (h'.enough henough.1 henough.2).symm).map _
  · obtain ⟨hbest, hlen⟩ := h.tooFew henough
    obtain ⟨hbest', hlen'⟩ := h'.tooFew henough
    rw [hbest.logits_eq hbest' (hlen.trans hlen'.symm)]

variable [Sorters F] [LawfulSorters F] [LawfulFloats F]

/-- No logit is below the smallest finite number of single precision. -/
def FiniteLogits (cur : Cands F) : Prop :=
  ∀ t ∈ cur.data, neg (ofRat (2 ^ 128 - 2 ^ 104)) ≤ t.logit

theorem minPApply_keepsWithin {cur : Cands F} (hne : cur.data ≠ []) (hfinite : FiniteLogits cur)
    (hsorted : cur.Truthful) (hnum : 128 < cur.size → ∀ t ∈ cur.data, Numbered t.logit)
    (hp : ¬ p ≤ ofRat 0) (minKeep : Nat) :
    KeepsWithin p minKeep cur.data (minPApply p minKeep cur).data := by
  have hsize : ¬ (p ≤ ofRat 0 ∨ cur.size = 0) := by
    rintro (h | h)
    · exact hp h
    · exact hne (List.length_eq_zero_iff.1 h)
  have hfiltered : (cur.data.filter fun t => add (maxLogit false cur.data) (log p) ≤ t.logit) =
      within p cur.data := rfl
  rw [minPApply, if_neg hsize]
  simp only [foldl_max_eq hne hfinite, hfiltered]
  split
  case isTrue h =>
    constructor
    case enough => exact fun _ _ => .refl _
    case tooFew => exact fun hfew => absurd h.2 hfew
  case isFalse =>
    have hstep : (if cur.sorted then cur else partialSortInplace cur cur.size).data.Perm cur.data ∧
        Descending (if cur.sorted then cur else partialSortInplace cur cur.size).data := by
      split
      case isTrue hs => exact ⟨.refl _, hsorted hs⟩
      case isFalse =>
        have hlen := partialSortInplace_size (Nat.le_refl cur.size)
        exact ⟨(best_partialSortInplace hnum (Nat.le_refl _)).perm_of_length hlen,
          partialSortInplace_descending hnum (Nat.le_refl _)⟩
    generalize (if cur.sorted then cur else partialSortInplace cur cur.size) = sortedCur at hstep
    obtain ⟨hperm, hd⟩ := hstep
    split
    case h_1 hnil =>
      rw [hnil] at hperm
      exact absurd hperm.nil_eq.symm hne
    case h_2 first rest hcons =>
      rw [hcons] at hperm hd ⊢
      exact (take_minPCount hd p minKeep).perm hperm

end MinP

section Filters
variable [Floats F] [Sorters F] [LawfulSorters F] [LawfulFloats F]

/-- The filters keep what they would keep of all the tokens sorted: the largest logits, the best
`k`, the shortest prefix that is not empty and reaches a probability, and the tokens within a
threshold or the best ones, of which there is at least one. Among more tokens than the plain sort
takes, the number of each one's bucket has to be an integer of the machine. -/
theorem filters_keep_best {cur : Cands F} (hne : cur.data ≠ []) (hfinite : FiniteLogits cur)
    (hnum : 128 < cur.size → ∀ t ∈ cur.data, Numbered t.logit) (hsorted : cur.Truthful) :
    (∀ n, 1 ≤ n → n ≤ cur.size →
        Best cur.data (partialSortInplace cur n).data ∧ (partialSortInplace cur n).size = n) ∧
      (∀ k : Int, (k ≤ 0 → topKImpl cur k = cur) ∧
        (0 < k → Best cur.data (topKImpl cur k).data ∧
          (topKImpl cur k).size = min k.toNat cur.size)) ∧
      (∀ (p : F) (minKeep : Nat), (ofRat 1 ≤ p → topPApply p minKeep cur = some cur) ∧
        (¬ ofRat 1 ≤ p → ∃ out, topPApply p minKeep cur = some out ∧
          ∃ s : List (TokenData F), s.Perm (setProbs (maxLogit cur.sorted cur.data) cur.data) ∧
            Descending s ∧ ∃ n, Nucleus p minKeep s n ∧ out.data = s.take n)) ∧
      ∀ (p : F) (minKeep : Nat), (p ≤ ofRat 0 → minPApply p minKeep cur = cur) ∧
        (¬ p ≤ ofRat 0 → KeepsWithin p minKeep cur.data (minPApply p minKeep cur).data ∧
          ∀ other : Cands F, other.data.Perm cur.data → other.InOrder →
            KeepsWithin p minKeep cur.data (minPApply p minKeep other).data ∧
            ((minPApply p minKeep other).data.map (·.logit)).Perm
              ((minPApply p minKeep cur).data.map (·.logit))) := by
  refine ⟨?_, ?_, ?_, ?_⟩
  · exact fun n _ hn => ⟨best_partialSortInplace (fun h => hnum (by omega)) hn,
      partialSortInplace_size hn⟩
  · exact fun k => ⟨fun hk => if_pos hk, fun hk => topKImpl_best hsorted hnum hk⟩
  · exact fun p minKeep => ⟨fun hp => if_pos hp, fun hp =>
      topPApply_nucleus hne hsorted hnum hp minKeep⟩
  · intro p minKeep
    refine ⟨fun hp => if_pos (.inl hp), fun hp => ?_⟩
    have hkeeps := minPApply_keepsWithin hne hfinite hsorted hnum hp minKeep
    refine ⟨hkeeps, fun other hperm hother => ?_⟩
    have hne' : other.data ≠ [] := fun hnil => hne (by rw [hnil] at hperm; exact hperm.nil_eq.symm)
    have hfinite' : FiniteLogits other := fun t ht => hfinite t (hperm.mem_iff.1 ht)
    have hnum' : 128 < other.size → ∀ t ∈ other.data, Numbered t.logit := by
      rw [Cands.size, hperm.length_eq]
      exact fun hlarge t ht => hnum hlarge t (hperm.mem_iff.1 ht)
    have hkeeps' :=
      (minPApply_keepsWithin hne' hfinite' hother.truthful hnum' hp minKeep).perm hperm
    exact ⟨hkeeps', hkeeps'.logits hkeeps⟩

/-- Two candidates, the better one behind. -/
def twoTokens : Cands Exact := ⟨[⟨0, some 2, some 0⟩, ⟨1, some 4, some 0⟩], -1, false⟩

theorem filters_keep_best_twoTokens :
    Best twoTokens.data (partialSortInplace twoTokens 1).data ∧
      KeepsWithin (ofRat 1) 0 twoTokens.data (minPApply (ofRat 1) 0 twoTokens).data := by
  have hne : twoTokens.data ≠ [] := by decide
  have hfinite : FiniteLogits twoTokens := by
    intro t ht
    rcases List.mem_cons.1 ht with rfl | ht
    · exact WithBot.coe_le_coe.2 (by norm_num)
    · cases List.mem_singleton.1 ht
      exact WithBot.coe_le_coe.2 (by norm_num)
  have hsorted : twoTokens.Truthful := fun h => by cases h
  obtain ⟨hsort, -, -, hminP⟩ := filters_keep_best hne hfinite
    (fun hlarge => absurd hlarge (by decide)) hsorted
  have hp : ¬ (ofRat 1 : Exact) ≤ ofRat 0 := by decide +kernel
  exact ⟨(hsort 1 (by decide) (by decide)).1, ((hminP (ofRat 1) 0).2 hp).1⟩

/-- Exact numbers with a logarithm that is positive above one. -/
abbrev positiveLog : Floats Exact :=
  { (inferInstance : Floats Exact) with
    log := Exact.map fun q => q - 1 }

/-- All tokens are kept where none is asked for, one is kept where the empty prefix reaches the
probability, and one where none is within the threshold. -/
theorem filters_keep_one :
    (topKImpl twoTokens 0).size = 2 ∧
      (topPApply (ofRat 0) 0 twoTokens).map Cands.size = some 1 ∧
      (ofRat 0 : Exact) ≤ prob (twoTokens.data.take 0) ∧
      @within Exact positiveLog (ofRat 2) twoTokens.data = [] ∧
      (@minPApply Exact positiveLog inferInstance (ofRat 2) 0 twoTokens).size = 1 := by
  refine ⟨by decide, by decide +kernel, by decide +kernel, by decide +kernel, by decide +kernel⟩

end Filters

end ActQuant.Sampling
