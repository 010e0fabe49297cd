import ActQuant.Lib.Lists

namespace ActQuant.Lib

/-! Buckets that are gone through from the top one down. -/

variable {α : Type} {f : Nat → List α} {idx : α → Nat}

/-- The buckets above `ib`, from `top` down. -/
def downTo (f : Nat → List α) (top ib : Nat) : List α :=
  ((List.range (top - ib)).map fun j => f (top - j)).flatten

theorem downTo_self (f : Nat → List α) (top : Nat) : downTo f top top = [] := by
  rw [downTo, Nat.sub_self]
  rfl

theorem downTo_step (f : Nat → List α) (h : ib < top) :
    downTo f top ib = downTo f top (ib + 1) ++ f (ib + 1) := by
  have hn : top - ib = (top - (ib + 1)) + 1 := by omega
  have hlast : top - (top - (ib + 1)) = ib + 1 := by omega
  rw [downTo, hn, List.range_succ, List.map_append, List.flatten_append, List.map_singleton,
    List.flatten_singleton, hlast]
  rfl

theorem mem_downTo : a ∈ downTo f top ib ↔ ∃ j, ib < j ∧ j ≤ top ∧ a ∈ f j := by
  constructor
  · intro ha
    obtain ⟨l, hl, hal⟩ := List.mem_flatten.1 ha
    obtain ⟨j, hj, rfl⟩ := List.mem_map.1 hl
    rw [List.mem_range] at hj
    exact ⟨top - j, by omega, by omega, hal⟩
  · rintro ⟨j, hlt, hle, ha⟩
    refine List.mem_flatten.2 ⟨f j, List.mem_map.2 ⟨top - j, ?_, ?_⟩, ha⟩
    · rw [List.mem_range]
      omega
    · rw [Nat.sub_sub_self hle]

/-- Buckets that are in order, each above the lower ones, are in order one after another. -/
theorem pairwise_downTo {R : α → α → Prop} (hin : ∀ j, (f j).Pairwise R)
    (hcross : ∀ i j, j < i → ∀ a ∈ f i, ∀ b ∈ f j, R a b) : (downTo f top ib).Pairwise R := by
  rw [downTo, List.pairwise_flatten]
  constructor
  · intro l hl
    obtain ⟨j, _, rfl⟩ := List.mem_map.1 hl
    exact hin _
  · rw [List.pairwise_map]
    refine List.pairwise_lt_range.imp_of_mem ?_
    intro i j hi hj hij
    rw [List.mem_range] at hi hj
    exact hcross _ _ (by omega)

theorem perm_filter_le (idx : α → Nat) (data : List α) (j : Nat) :
    (data.filter fun a => j ≤ idx a).Perm
      ((data.filter fun a => j + 1 ≤ idx a) ++ data.filter fun a => idx a = j) := by
  have hsplit : (fun a => decide (j ≤ idx a)) =
      fun a => decide (j + 1 ≤ idx a) || decide (idx a = j) := by
    funext a
    rw [← Bool.decide_or, decide_eq_decide]
    omega
  rw [hsplit]
  refine (filter_append_filter_perm ?_ data).symm
  intro a
  simp only [decide_eq_true_eq]
  omega

theorem length_filter_le (idx : α → Nat) (data : List α) (j : Nat) :
    (data.filter fun a => j ≤ idx a).length =
      (data.filter fun a => j + 1 ≤ idx a).length + (data.filter fun a => idx a = j).length := by
  rw [(perm_filter_le idx data j).length_eq, List.length_append]

/-- The buckets above one have what lies in them. -/
theorem perm_downTo {data : List α} (hperm : ∀ j, (f j).Perm (data.filter (idx · = j)))
    (htop : ∀ a ∈ data, idx a ≤ top) (h : ib ≤ top) :
    (downTo f top ib).Perm (data.filter fun a => ib + 1 ≤ idx a) := by
  induction h using Nat.decreasingInduction with
  | self =>
    have hnone : (data.filter fun a => top + 1 ≤ idx a) = [] := by
      rw [List.filter_eq_nil_iff]
      intro a ha hle
      rw [decide_eq_true_eq] at hle
      exact absurd (htop a ha) (by omega)
    rw [downTo_self, hnone]
  | of_succ ib hib ih =>
    rw [downTo_step f hib]
    exact (ih.append (hperm (ib + 1))).trans (perm_filter_le idx data (ib + 1)).symm

end ActQuant.Lib
