import Mathlib.Data.Finset.Card

namespace ActQuant.Lib

/-! Picking from what is left, round after round, until nothing is picked. -/

section Rounds

variable {α : Type} [DecidableEq α]

/-- The picks of so many rounds; the rounds end with the first empty pick. -/
def rounds (pick : Finset α → List α) : Nat → Finset α → List (List α)
  | 0, _ => []
  | n + 1, used =>
    if pick used = [] then []
    else pick used :: rounds pick n (used ∪ (pick used).toFinset)

/-- A way to pick that takes different new things, and some as long as there are any; the things
used stay in a state that the picks can count on. -/
structure Picks (pick : Finset α → List α) (all : Finset α) (I : Finset α → Prop) : Prop where
  nodup : ∀ used, I used → (pick used).Nodup
  fresh : ∀ used, I used → ∀ a ∈ pick used, a ∈ all ∧ a ∉ used
  stop : ∀ used, I used → pick used = [] → all ⊆ used
  step : ∀ used, I used → I (used ∪ (pick used).toFinset)

/-- Rounds over everything that was left. -/
structure Covers (all used : Finset α) (xss : List (List α)) : Prop where
  nodup : xss.flatten.Nodup
  mem : ∀ a, a ∈ xss.flatten ↔ a ∈ all ∧ a ∉ used

theorem Covers.tail {all used : Finset α} (h : Covers all used (xs :: xss)) :
    Covers all (used ∪ xs.toFinset) xss := by
  obtain ⟨hnd, hmem⟩ := h
  rw [List.flatten_cons, List.nodup_append] at hnd
  obtain ⟨_, hrest, hdisj⟩ := hnd
  refine ⟨hrest, fun a => ?_⟩
  rw [Finset.mem_union, not_or, List.mem_toFinset, ← and_assoc, ← hmem, List.flatten_cons,
    List.mem_append]
  constructor
  · exact fun ha => ⟨.inr ha, fun hx => hdisj a hx a ha rfl⟩
  · rintro ⟨hx | ha, hno⟩
    · exact (hno hx).elim
    · exact ha

theorem rounds_covers {pick : Finset α → List α} {all used : Finset α} {I : Finset α → Prop}
    (hp : Picks pick all I) (hI : I used) (hn : (all \ used).card ≤ n) :
    Covers all used (rounds pick n used) ∧
      pick (used ∪ (rounds pick n used).flatten.toFinset) = [] := by
  induction n generalizing used with
  | zero =>
    have hsub : all ⊆ used := Finset.sdiff_eq_empty_iff_subset.1
      (Finset.card_eq_zero.1 (Nat.le_zero.1 hn))
    have hnil : pick used = [] := by
      by_contra hne
      obtain ⟨a, ha⟩ := List.exists_mem_of_ne_nil _ hne
      obtain ⟨hin, hout⟩ := hp.fresh used hI a ha
      exact hout (hsub hin)
    refine ⟨⟨List.nodup_nil, fun a => ?_⟩, ?_⟩
    · exact iff_of_false List.not_mem_nil fun h => h.2 (hsub h.1)
    · rw [rounds, List.flatten_nil, List.toFinset_nil, Finset.union_empty]
      exact hnil
  | succ n ih =>
    rw [rounds]
    split
    · case isTrue hnil =>
      refine ⟨⟨List.nodup_nil, fun a => ?_⟩, ?_⟩
      · exact iff_of_false List.not_mem_nil fun h => h.2 (hp.stop used hI hnil h.1)
      · rw [List.flatten_nil, List.toFinset_nil, Finset.union_empty]
        exact hnil
    · case isFalse hne =>
      have hless : (all \ (used ∪ (pick used).toFinset)).card < (all \ used).card := by
        obtain ⟨a, ha⟩ := List.exists_mem_of_ne_nil _ hne
        obtain ⟨hin, hout⟩ := hp.fresh used hI a ha
        apply Finset.card_lt_card
        refine Finset.ssubset_iff_subset_ne.2 ⟨?_, fun he => ?_⟩
        · exact Finset.sdiff_subset_sdiff (Finset.Subset.refl _) Finset.subset_union_left
        · have hmem : a ∈ all \ (used ∪ (pick used).toFinset) :=
            he.symm ▸ Finset.mem_sdiff.2 ⟨hin, hout⟩
          exact (Finset.mem_sdiff.1 hmem).2
            (Finset.mem_union_right _ (List.mem_toFinset.2 ha))
      obtain ⟨hcov, hend⟩ := ih (hp.step used hI) (by omega)
      refine ⟨⟨?_, fun a => ?_⟩, ?_⟩
      · rw [List.flatten_cons, List.nodup_append]
        refine ⟨hp.nodup used hI, hcov.nodup, ?_⟩
        rintro a ha b hb rfl
        exact ((hcov.mem a).1 hb).2 (Finset.mem_union_right _ (List.mem_toFinset.2 ha))
      · rw [List.flatten_cons, List.mem_append, hcov.mem, Finset.mem_union, not_or,
          List.mem_toFinset]
        constructor
        · rintro (ha | ⟨hin, hout, _⟩)
          · exact hp.fresh used hI a ha
          · exact ⟨hin, hout⟩
        · rintro ⟨hin, hout⟩
          by_cases ha : a ∈ pick used
          · exact .inl ha
          · exact .inr ⟨hin, hout, ha⟩
      · rw [List.flatten_cons, List.toFinset_append, ← Finset.union_assoc]
        exact hend

/-- A statement about each round and what was used before it. -/
def EachRound (Q : Finset α → List α → Prop) : Finset α → List (List α) → Prop
  | _, [] => True
  | used, xs :: xss => Q used xs ∧ EachRound Q (used ∪ xs.toFinset) xss

/-- Two statements that agree of every pick agree of all the rounds. -/
theorem eachRound_rounds_congr {pick : Finset α → List α} {I : Finset α → Prop}
    {Q R : Finset α → List α → Prop} (hI : I used)
    (hstep : ∀ used, I used → I (used ∪ (pick used).toFinset))
    (hQR : ∀ used, I used → (Q used (pick used) ↔ R used (pick used))) (n : Nat) :
    EachRound Q used (rounds pick n used) ↔ EachRound R used (rounds pick n used) := by
  induction n generalizing used with
  | zero => exact Iff.rfl
  | succ n ih =>
    rw [rounds]
    split
    · exact Iff.rfl
    · exact and_congr (hQR used hI) (ih (hstep used hI))

theorem eachRound_iff_forall {Q : List α → Prop} :
    EachRound (fun _ => Q) used xss ↔ ∀ xs ∈ xss, Q xs := by
  induction xss generalizing used with
  | nil => exact iff_of_true trivial fun _ hx => (List.not_mem_nil hx).elim
  | cons ys xss ih => rw [EachRound, ih, List.forall_mem_cons]

theorem eachRound_and {Q R : Finset α → List α → Prop} :
    EachRound (fun used xs => Q used xs ∧ R used xs) used xss ↔
      EachRound Q used xss ∧ EachRound R used xss := by
  induction xss generalizing used with
  | nil => exact ⟨fun _ => ⟨trivial, trivial⟩, fun _ => trivial⟩
  | cons xs xss ih =>
    rw [EachRound, EachRound, EachRound, ih]
    exact and_and_and_comm

end Rounds

section Order

variable {α : Type} [LinearOrder α]

theorem sorted_shares {shares : α → α → Prop} {xs : List α} (h : xs.Pairwise (· < ·)) :
    xs.Pairwise fun a b => shares a b → a < b := by
  apply h.imp
  exact fun hlt _ => hlt

/-- A round that goes up where it has to, past nothing that is left behind. -/
def NoJump (all : Finset α) (shares : α → α → Prop) (used : Finset α) (xs : List α) : Prop :=
  xs.Pairwise (fun a b => shares a b → a < b) ∧
    ∀ b ∈ xs, ∀ a ∈ all, a < b → shares a b → a ∈ used ∨ a ∈ xs

/-- All that was left comes in order exactly where no round jumps. -/
theorem ordered_iff_noJump {all used : Finset α} {shares : α → α → Prop}
    (hsymm : ∀ a b, shares a b → shares b a) (h : Covers all used xss) :
    xss.flatten.Pairwise (fun a b => shares a b → a < b) ↔
      EachRound (NoJump all shares) used xss := by
  induction xss generalizing used with
  | nil => exact iff_of_true List.Pairwise.nil trivial
  | cons xs xss ih =>
    have htail := h.tail
    rw [List.flatten_cons, List.pairwise_append, ih htail, EachRound]
    constructor
    · rintro ⟨hself, hrest, hcross⟩
      refine ⟨⟨hself, fun b hb a ha hlt hs => ?_⟩, hrest⟩
      by_contra hno
      rw [not_or] at hno
      have hin : a ∈ xss.flatten := by
        rw [htail.mem, Finset.mem_union, not_or, List.mem_toFinset]
        exact ⟨ha, hno⟩
      exact lt_asymm hlt (hcross b hb a hin (hsymm a b hs))
    · rintro ⟨⟨hself, hjump⟩, hrest⟩
      refine ⟨hself, hrest, fun a ha b hb hs => ?_⟩
      obtain ⟨hall, hnot⟩ := (htail.mem b).1 hb
      rw [Finset.mem_union, not_or, List.mem_toFinset] at hnot
      rcases lt_trichotomy a b with hlt | rfl | hgt
      · exact hlt
      · exact (hnot.2 ha).elim
      · exact (not_or.2 hnot (hjump a ha b hall hgt (hsymm a b hs))).elim

end Order
end ActQuant.Lib
