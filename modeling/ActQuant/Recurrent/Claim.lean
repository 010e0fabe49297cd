import ActQuant.Recurrent.SeqMoves

namespace ActQuant.Recurrent
open ActQuant.Batch ActQuant.Lib

namespace Memory

/-! ### The debug check -/

theorem verifTurn_foldl {l : List Nat} {v : Verif} (hnd : l.Nodup) (hv : ∀ s ∈ l, v.2 s = none) :
    l.foldl (verifTurn i) v = (v.1, fun s => if s ∈ l then some i else v.2 s) := by
  induction l generalizing v with
  | nil => rfl
  | cons s l ih =>
    obtain ⟨hout, hnd⟩ := List.nodup_cons.1 hnd
    have hturn : verifTurn i v s = (v.1, Function.update v.2 s (some i)) := by
      rw [verifTurn, hv s List.mem_cons_self]
      rfl
    rw [List.foldl_cons, hturn, ih hnd]
    · refine Prod.ext rfl (funext fun a => ?_)
      dsimp only
      by_cases ha : a = s
      · rw [ha, if_neg hout, Function.update_self, if_pos List.mem_cons_self]
      · rw [Function.update_of_ne ha]
        exact if_congr ⟨.tail _, fun h => (List.mem_cons.1 h).resolve_left ha⟩ rfl rfl
    · intro a ha
      have hne : a ≠ s := by
        rintro rfl
        exact hout ha
      exact (Function.update_of_ne hne ..).trans (hv a (.tail _ ha))

theorem Booked.verifCells {m : Memory} (h : m.Booked) :
    m.verifCells = ([], fun s => if s < m.size then m.tail s else none) := by
  have hpass : ∀ k ≤ m.size, (List.range k).foldl
      (fun v i => ((m.cell i).seqId.sort (· ≤ ·)).foldl (verifTurn i) v) ([], fun _ => none) =
      (([], fun s => if s < m.size then (m.tail s).filter (· < k) else none) : Verif) := by
    intro k hk
    induction k with
    | zero =>
      refine Prod.ext rfl (funext fun s => ?_)
      dsimp only
      cases m.tail s with
      | none => rw [Option.filter_none, ite_self]; rfl
      | some t => rw [Option.filter_some_neg (by simp), ite_self]; rfl
    | succ k ih =>
      have hmem : ∀ s, s ∈ (m.cell k).seqId.sort (· ≤ ·) ↔ s < m.size ∧ m.tail s = some k := by
        intro s
        rw [Finset.mem_sort, h.sets k hk, mem_tailsAt]
      rw [List.range_succ, List.foldl_append, ih (by omega), List.foldl_cons, List.foldl_nil,
        verifTurn_foldl (Finset.sort_nodup _ _)]
      · refine Prod.ext rfl (funext fun s => ?_)
        dsimp only
        by_cases hs : s < m.size
        · rw [if_pos hs, if_pos hs]
          cases ht : m.tail s with
          | none => simp [hmem, ht]
          | some t =>
            by_cases htk : t = k
            · simp [hmem, ht, htk, hs, Option.filter_some]
            · have hlt : t < k ↔ t < k + 1 := by omega
              simp [hmem, ht, htk, Option.filter_some, hlt]
        · simp [hmem, hs]
      · intro s hs
        obtain ⟨hsn, ht⟩ := (hmem s).1 hs
        dsimp only
        rw [if_pos hsn, ht]
        simp
  rw [Memory.verifCells, hpass m.size (Nat.le_refl _)]
  refine Prod.ext rfl (funext fun s => ?_)
  dsimp only
  by_cases hs : s < m.size
  · rw [if_pos hs, if_pos hs]
    cases ht : m.tail s with
    | none => rfl
    | some t =>
      have htn := h.tails s hs t ht
      simp [Option.filter_some, htn]
  · rw [if_neg hs, if_neg hs]

/-- The debug check has nothing to report. -/
theorem Booked.tailErrors {m : Memory} (h : m.Booked) : m.tailErrors = [] := by
  rw [Memory.tailErrors, h.verifCells]
  dsimp only
  rw [List.nil_append, List.filterMap_eq_nil_iff]
  intro s hs
  exact if_neg fun hne => hne (if_pos (List.mem_range.1 hs))

end Memory

/-! ### Sets of a ubatch -/

/-- The sets are not empty and apart from each other, as the splits of a batch make them. -/
structure Splits (u : Ubatch) : Prop where
  equal : u.equalSeqs = true
  some : 0 < u.nSeqs
  named : ∀ k < u.nSeqs, seqsOf u k ≠ []
  apart : ∀ j < u.nSeqs, ∀ k < u.nSeqs, j ≠ k → ∀ s ∈ seqsOf u j, s ∉ seqsOf u k

variable {u : Ubatch}

theorem Splits.owner_mem (h : Splits u) (hk : k < u.nSeqs) : owner u k ∈ seqsOf u k := by
  have hne := h.named k hk
  rw [owner]
  cases hs : seqsOf u k with
  | nil => exact (hne hs).elim
  | cons s l => exact List.mem_cons_self

theorem Splits.owner_ne (h : Splits u) (hj : j < u.nSeqs) (hk : k < u.nSeqs) (hne : j ≠ k) :
    owner u j ≠ owner u k := by
  intro he
  exact h.apart j hj k hk hne _ (h.owner_mem hj) (he ▸ h.owner_mem hk)

/-- A sequence that is not the first entry of its set. -/
def Later (u : Ubatch) (s : Nat) : Prop := ∃ k < u.nSeqs, s ∈ (seqsOf u k).tail

instance (u : Ubatch) (s : Nat) : Decidable (Later u s) :=
  inferInstanceAs (Decidable (∃ k < u.nSeqs, s ∈ (seqsOf u k).tail))

theorem mem_seqPlaces : (s, j) ∈ seqPlaces u ↔ ∃ k < u.nSeqs, (seqsOf u k)[j]? = some s := by
  rw [seqPlaces, List.mem_flatMap]
  simp only [List.mem_range, List.mem_zipIdx_iff_getElem?]

theorem later_iff : Later u s ↔ ∃ a ∈ seqPlaces u, a.1 = s ∧ 0 < a.2 := by
  constructor
  · rintro ⟨k, hk, hs⟩
    obtain ⟨j, hj⟩ := List.mem_iff_getElem?.1 hs
    rw [List.getElem?_tail] at hj
    exact ⟨(s, j + 1), mem_seqPlaces.2 ⟨k, hk, hj⟩, rfl, Nat.succ_pos j⟩
  · rintro ⟨⟨s, j⟩, ha, rfl, hj⟩
    obtain ⟨k, hk, hs⟩ := mem_seqPlaces.1 ha
    obtain ⟨j, rfl⟩ := Nat.exists_eq_succ_of_ne_zero (Nat.ne_of_gt hj)
    refine ⟨k, hk, List.mem_iff_getElem?.2 ⟨j, ?_⟩⟩
    rw [List.getElem?_tail]
    exact hs

namespace Memory

/-- The memory after some of the sequences were made to leave their cells. -/
structure Unshared (m m' : Memory) : Prop where
  booked : m'.Booked
  shrunk : Shrunk m m'
  tail : ∀ s, m'.tail s = m.tail s ∨ m'.tail s = none

theorem Unshared.refl {m : Memory} (h : m.Booked) : Unshared m m := ⟨h, .refl m, fun _ => .inl rfl⟩

theorem Unshared.trans {m₁ m₂ m₃ : Memory} (h : Unshared m₁ m₂) (h' : Unshared m₂ m₃) :
    Unshared m₁ m₃ where
  booked := h'.booked
  shrunk := h.shrunk.trans h'.shrunk
  tail := by
    intro s
    rcases h'.tail s with he | he
    · rw [he]
      exact h.tail s
    · exact .inr he

theorem Booked.unshared_leave {m : Memory} (h : m.Booked) (hs : s < m.size) :
    Unshared m (m.leave s) := by
  obtain ⟨hbook, hshrunk⟩ := h.leave hs
  refine ⟨hbook, hshrunk, fun a => ?_⟩
  rw [leave_tail]
  by_cases ha : a = s
  · rw [ha, Function.update_self]
    exact .inr rfl
  · rw [Function.update_of_ne ha]
    exact .inl rfl

theorem Booked.unshareTurn_ok {m m' : Memory} (h : m.Booked) (ht : unshareTurn m a = .ok m') :
    Unshared m m' ∧ a.1 < m.size ∧
      ∀ s, m'.tail s = if s = a.1 ∧ 0 < a.2 then none else m.tail s := by
  rw [unshareTurn] at ht
  split at ht
  · cases ht
  · case isFalse hin =>
    split at ht
    · case isTrue hlater =>
      cases ht
      refine ⟨h.unshared_leave (by omega), by omega, fun s => ?_⟩
      rw [leave_tail, Function.update_apply]
      exact if_congr (and_iff_left hlater).symm rfl rfl
    · case isFalse hfirst =>
      cases ht
      refine ⟨.refl h, by omega, fun s => ?_⟩
      rw [if_neg fun hs => hfirst hs.2]

theorem Booked.unshare_error {l : List (Nat × Nat)} {m m' : Memory} (h : m.Booked)
    (ht : l.foldlM unshareTurn m = .error m') : Unshared m m' := by
  induction l generalizing m with
  | nil => cases ht
  | cons a l ih =>
    rw [List.foldlM_cons] at ht
    cases hturn : unshareTurn m a with
    | error m₁ =>
      rw [hturn] at ht
      cases ht
      rw [unshareTurn] at hturn
      split at hturn
      · cases hturn
        exact .refl h
      · split at hturn
        · cases hturn
        · cases hturn
    | ok m₁ =>
      rw [hturn] at ht
      have hstep := (h.unshareTurn_ok hturn).1
      exact hstep.trans (ih hstep.booked ht)

theorem Booked.unshare_ok {l : List (Nat × Nat)} {m m' : Memory} (h : m.Booked)
    (ht : l.foldlM unshareTurn m = .ok m') :
    Unshared m m' ∧ (∀ a ∈ l, a.1 < m.size) ∧
      ∀ s, m'.tail s = if ∃ a ∈ l, a.1 = s ∧ 0 < a.2 then none else m.tail s := by
  induction l generalizing m with
  | nil =>
    cases ht
    refine ⟨.refl h, fun _ ha => (List.not_mem_nil ha).elim, fun s => (if_neg ?_).symm⟩
    rintro ⟨a, ha, -⟩
    exact List.not_mem_nil ha
  | cons a l ih =>
    rw [List.foldlM_cons] at ht
    cases hturn : unshareTurn m a with
    | error m₁ =>
      rw [hturn] at ht
      cases ht
    | ok m₁ =>
      rw [hturn] at ht
      obtain ⟨hstep, ha, htail⟩ := h.unshareTurn_ok hturn
      obtain ⟨hrest, hl, htail'⟩ := ih hstep.booked ht
      refine ⟨hstep.trans hrest, ?_, fun s => ?_⟩
      · intro b hb
        rcases List.mem_cons.1 hb with rfl | hb
        · exact ha
        · exact hstep.shrunk.size ▸ hl b hb
      · rw [htail', htail]
        simp only [List.mem_cons, exists_eq_or_imp]
        by_cases hs : a.1 = s ∧ 0 < a.2
        · have hs' : s = a.1 ∧ 0 < a.2 := ⟨hs.1.symm, hs.2⟩
          rw [if_pos hs', ite_self, if_pos (Or.inl hs)]
        · have hs' : ¬ (s = a.1 ∧ 0 < a.2) := fun he => hs ⟨he.1.symm, he.2⟩
          rw [if_neg hs']
          exact if_congr (or_iff_right hs).symm rfl rfl

/-- The memory in which a range of cells is searched for. -/
structure Checked (u : Ubatch) (m m' : Memory) : Prop extends Unshared m m' where
  below : ∀ k < u.nSeqs, ∀ s ∈ seqsOf u k, s < m.size
  cleared : ∀ s, m'.tail s = if Later u s then none else m.tail s

theorem Booked.checked {m m' : Memory} (h : m.Booked) (ht : unshare u m = .ok m') :
    Checked u m m' := by
  obtain ⟨hun, hbelow, htail⟩ := h.unshare_ok ht
  refine ⟨hun, fun k hk s hs => ?_, fun s => ?_⟩
  · obtain ⟨j, hj⟩ := List.mem_iff_getElem?.1 hs
    exact hbelow (s, j) (mem_seqPlaces.2 ⟨k, hk, hj⟩)
  · rw [htail]
    exact if_congr later_iff.symm rfl rfl

end Memory
end ActQuant.Recurrent
