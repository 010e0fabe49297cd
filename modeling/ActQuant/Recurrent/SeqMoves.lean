import ActQuant.Recurrent.Memory

namespace ActQuant.Recurrent
open ActQuant.KvCache ActQuant.Lib

namespace Memory

/-! ### Leaving and joining cells -/

theorem leave_none {m : Memory} (ht : m.tail s = none) : m.leave s = m := by
  rw [leave, ht]
  rfl

/-- A sequence leaves the cell it is in, and the cell may be vacated. -/
theorem leave_some {m : Memory} (ht : m.tail s = some t) :
    let left := (m.cell t).seqId.erase s
    (m.leave s).size = m.size ∧ (m.leave s).head = m.head ∧
      (m.leave s).tail = Function.update m.tail s none ∧
      (m.leave s).cell = Function.update m.cell t
        (if left = ∅ then (m.cell t).vacate else { m.cell t with seqId := left }) ∧
      (m.leave s).used = if left = ∅ then m.used - 1 else m.used := by
  intro left
  rw [leave, ht, Option.elim_some]
  dsimp only
  by_cases he : left = ∅
  · rw [if_pos (MemCell.isEmpty_iff.2 he), if_pos he, if_pos he]
    exact ⟨rfl, rfl, rfl, rfl, rfl⟩
  · rw [if_neg fun hi => he (MemCell.isEmpty_iff.1 hi), if_neg he, if_neg he]
    exact ⟨rfl, rfl, rfl, rfl, rfl⟩

theorem leave_tail (m : Memory) (s : Nat) :
    (m.leave s).tail = Function.update m.tail s none := by
  cases ht : m.tail s with
  | none => rw [leave_none ht, ← ht, Function.update_eq_self]
  | some t => exact (leave_some ht).2.2.1

theorem Booked.leave {m : Memory} (h : m.Booked) (hs : s < m.size) :
    (m.leave s).Booked ∧ Shrunk m (m.leave s) := by
  cases ht : m.tail s with
  | none =>
    rw [leave_none ht]
    exact ⟨h, .refl m⟩
  | some t =>
    obtain ⟨htn, hmem⟩ := (h.tail_iff hs).1 ht
    obtain ⟨hsize, hhead, htail, hcell, hused⟩ := leave_some ht
    generalize m.leave s = m' at *
    have hleft : (m'.cell t).seqId = (m.cell t).seqId.erase s := by
      rw [hcell, Function.update_self]
      split
      · case isTrue he => exact he.symm
      · rfl
    have hother : ∀ i, i ≠ t → m'.cell i = m.cell i := by
      intro i hi
      rw [hcell, Function.update_of_ne hi]
    have hshrunk : Shrunk m m' := by
      refine ⟨hsize, fun i _ => ?_, fun i _ => ?_⟩
      · by_cases hi : i = t
        · rw [hi, hleft]
          exact Finset.erase_subset _ _
        · rw [hother i hi]
      · by_cases hi : i = t
        · subst hi
          by_cases he : (m.cell i).seqId.erase s = ∅
          · rw [hcell, Function.update_self, if_pos he]
            exact .inr ⟨rfl, rfl⟩
          · rw [hcell, Function.update_self, if_neg he]
            exact .inl ⟨rfl, fun hempty => (he hempty).elim⟩
        · rw [hother i hi]
          exact .inl ⟨rfl, id⟩
    have hsets : ∀ i < m.size, (m'.cell i).seqId = m'.tailsAt i := by
      intro i hi
      rw [tailsAt, htail, hsize, fibre_update_other fun hn => by cases hn]
      by_cases hit : i = t
      · rw [hit, hleft, h.sets t htn]
        rfl
      · rw [hother i hit, h.sets i hi]
        refine (Finset.erase_eq_of_notMem fun hm => hit ?_).symm
        exact Option.some.inj ((mem_fibre.1 hm).2.symm.trans ht)
    have hvacant : ∀ i < m.size, (m'.cell i).seqId = ∅ → (m'.cell i).pos = -1 := by
      intro i hi hempty
      by_cases hit : i = t
      · subst hit
        rw [hleft] at hempty
        rw [hcell, Function.update_self, if_pos hempty]
        rfl
      · rw [hother i hit] at hempty ⊢
        exact h.vacant i hi hempty
    have hcount : m'.used = m'.usedCells := by
      rw [hused, h.used]
      split
      · case isTrue he =>
        exact (usedCells_freed hsize hother htn (Finset.ne_empty_of_mem hmem)
          (hleft.trans he)).symm
      · case isFalse he =>
        refine (usedCells_congr hsize fun i _ => ?_).symm
        by_cases hit : i = t
        · rw [hit, hleft]
          exact iff_of_false he (Finset.ne_empty_of_mem hmem)
        · rw [hother i hit]
    refine ⟨hshrunk.booked h (fun a _ i hi => ?_) hsets hvacant hcount (Nat.le_of_eq hhead),
      hshrunk⟩
    rw [htail] at hi
    by_cases ha : a = s
    · rw [ha, Function.update_self] at hi
      cases hi
    · rwa [Function.update_of_ne ha] at hi

/-- A sequence without a cell joins another one. -/
def join (m : Memory) (s t : Nat) : Memory :=
  (m.put t { m.cell t with seqId := insert s (m.cell t).seqId }).setTail s (some t)

theorem join_cell (m : Memory) (s t i : Nat) :
    ((m.join s t).cell i).pos = (m.cell i).pos ∧ ((m.join s t).cell i).src = (m.cell i).src ∧
      ((m.join s t).cell i).seqId =
        if i = t then insert s (m.cell t).seqId else (m.cell i).seqId := by
  rw [join, setTail, put]
  dsimp only
  by_cases hi : i = t
  · subst hi
    rw [Function.update_self, if_pos rfl]
    exact ⟨rfl, rfl, rfl⟩
  · rw [Function.update_of_ne hi, if_neg hi]
    exact ⟨rfl, rfl, rfl⟩

theorem join_tail (m : Memory) (s t : Nat) :
    (m.join s t).tail = Function.update m.tail s (some t) := rfl

theorem Booked.join {m : Memory} (h : m.Booked) (hs : s < m.size) (ht : m.tail s = none)
    (htn : t < m.size) (hne : (m.cell t).seqId ≠ ∅) : (m.join s t).Booked where
  tails := by
    intro a ha i hi
    rw [join_tail] at hi
    by_cases has : a = s
    · rw [has, Function.update_self] at hi
      cases hi
      exact htn
    · rw [Function.update_of_ne has] at hi
      exact h.tails a ha i hi
  sets := by
    intro i hi
    rw [(join_cell m s t i).2.2]
    split
    · case isTrue hit =>
      rw [hit, h.sets t htn]
      exact (fibre_update_self hs t).symm
    · case isFalse hit =>
      have hout : s ∉ fibre m.tail m.size i := by
        intro hm
        have hsi := (mem_fibre.1 hm).2
        rw [ht] at hsi
        cases hsi
      rw [tailsAt, join_tail, fibre_update_other fun he => hit (Option.some.inj he).symm]
      exact (h.sets i hi).trans (Finset.erase_eq_of_notMem hout).symm
  vacant := by
    intro i hi
    obtain ⟨hpos, -, hset⟩ := join_cell m s t i
    rw [hpos, hset]
    split
    · exact fun he => (Finset.insert_ne_empty _ _ he).elim
    · exact h.vacant i hi
  used := by
    refine h.used.trans (usedCells_congr (m := m) (n := m.join s t) rfl fun i _ => ?_).symm
    rw [(join_cell m s t i).2.2]
    split
    · case isTrue hit =>
      rw [hit]
      exact iff_of_false (Finset.insert_ne_empty _ _) hne
    · exact Iff.rfl
  own := by
    intro i hi j
    rw [(join_cell m s t i).2.1]
    exact h.own i hi j
  kept := by
    intro i hi
    obtain ⟨-, hsrc, hset⟩ := join_cell m s t i
    rw [hsrc, hset]
    split
    · case isTrue hit => exact fun _ => h.kept i hi (hit ▸ hne)
    · exact h.kept i hi
  head := h.head

theorem seqCpOf_eq (m : Memory) (src dst : Nat) :
    m.seqCpOf src dst =
      ((m.leave dst).tail src).elim (m.leave dst) fun t => (m.leave dst).join dst t := rfl

theorem Booked.seqCpOf {m : Memory} (h : m.Booked) (hsrc : src < m.size) (hdst : dst < m.size) :
    (m.seqCpOf src dst).Booked := by
  obtain ⟨hbook, hshrunk⟩ := h.leave hdst
  rw [seqCpOf_eq]
  cases ht : (m.leave dst).tail src with
  | none => exact hbook
  | some t =>
    obtain ⟨htn, hmem⟩ := (hbook.tail_iff (hshrunk.size.symm ▸ hsrc)).1 ht
    refine hbook.join (hshrunk.size.symm ▸ hdst) ?_ htn (Finset.ne_empty_of_mem hmem)
    rw [leave_tail, Function.update_self]

theorem Booked.seqCp {m : Memory} (h : m.Booked) (src dst : Int) : (m.seqCp src dst).Booked := by
  rw [Memory.seqCp]
  split
  · exact h
  · split
    · case isTrue hin => exact h.seqCpOf (by omega) (by omega)
    · exact h

/-! ### Keeping one sequence -/

/-- The cell after the turn of `seq_keep`. -/
def keepCell (seqId : Int) (x : MemCell) : MemCell :=
  if 0 ≤ seqId ∧ seqId.toNat ∈ x.seqId then { x with seqId := {seqId.toNat} } else x.vacate

def keepTail (seqId : Int) (s : Nat) (t : Option Nat) : Option Nat :=
  if (s : Int) ≠ seqId then none else t

/-- The count of used cells goes by positions, so that a cell that is dropped must have one. -/
def KeepAllowed (m : Memory) (seqId : Int) : Prop :=
  ∀ i < m.size, (m.cell i).seqId ≠ ∅ → ¬ (0 ≤ seqId ∧ seqId.toNat ∈ (m.cell i).seqId) →
    0 ≤ (m.cell i).pos

instance (m : Memory) (seqId : Int) : Decidable (m.KeepAllowed seqId) :=
  inferInstanceAs (Decidable (∀ _ < _, _))

theorem keepTurn_turn {st : Memory × Nat} (hi : i < st.1.size)
    (hv : (st.1.cell i).seqId = ∅ → (st.1.cell i).pos = -1)
    (hpos : (st.1.cell i).seqId ≠ ∅ → ¬ (0 ≤ seqId ∧ seqId.toNat ∈ (st.1.cell i).seqId) →
      0 ≤ (st.1.cell i).pos) :
    Turn (keepCell seqId) (keepTail seqId) (keepTurn seqId) st i := by
  have htail : (if (i : Int) ≠ seqId then st.1.setTail i none else st.1) =
      st.1.setTail i (keepTail seqId i (st.1.tail i)) := by
    rw [keepTail]
    split
    · rfl
    · rw [setTail, Function.update_eq_self]
  by_cases hin : 0 ≤ seqId ∧ seqId.toNat ∈ (st.1.cell i).seqId
  · have hcell : keepCell seqId (st.1.cell i) = { st.1.cell i with seqId := {seqId.toNat} } :=
      if_pos hin
    have hturn : keepTurn seqId st i =
        ((st.1.setTail i (keepTail seqId i (st.1.tail i))).put i
          (keepCell seqId (st.1.cell i)), st.2) := by
      rw [keepTurn]
      dsimp only
      rw [if_pos hin, htail, hcell]
    constructor
    case used =>
      intro hused
      rw [hturn]
      refine hused.trans (usedCells_congr (m := st.1) (n := st.1.put i
        (keepCell seqId (st.1.cell i))) rfl fun j _ => ?_).symm
      by_cases hj : j = i
      · rw [hj, put_self, hcell]
        exact iff_of_false (Finset.singleton_ne_empty _) (Finset.ne_empty_of_mem hin.2)
      · rw [put_other hj]
    all_goals rw [hturn]; rfl
  · have hcell : keepCell seqId (st.1.cell i) = (st.1.cell i).vacate := if_neg hin
    have hturn : keepTurn seqId st i =
        ({ (st.1.setTail i (keepTail seqId i (st.1.tail i))).put i (keepCell seqId (st.1.cell i))
            with used := if 0 ≤ (st.1.cell i).pos then st.1.used - 1 else st.1.used },
          if st.2 = st.1.size then i else st.2) := by
      rw [keepTurn]
      dsimp only
      rw [if_neg hin, htail, hcell]
      rfl
    constructor
    case used =>
      intro hused
      rw [hturn]
      dsimp only
      rw [hused]
      by_cases hempty : (st.1.cell i).seqId = ∅
      · rw [if_neg (by rw [hv hempty]; decide)]
        refine (usedCells_congr (m := st.1) (n := st.1.put i
          (keepCell seqId (st.1.cell i))) rfl fun j _ => ?_).symm
        by_cases hj : j = i
        · rw [hj, put_self, hcell]
          exact iff_of_true rfl hempty
        · rw [put_other hj]
      · rw [if_pos (hpos hempty hin)]
        refine (usedCells_freed (m := st.1) (n := st.1.put i
          (keepCell seqId (st.1.cell i))) rfl (fun j hj => ?_) hi hempty ?_).symm
        · exact put_other hj ..
        · rw [put_self, hcell]
          rfl
    all_goals rw [hturn]; rfl

theorem Booked.seqKeep {m : Memory} (h : m.Booked) (ha : m.KeepAllowed seqId) :
    (m.seqKeep seqId).Booked ∧ Shrunk m (m.seqKeep seqId) := by
  have hpass : Passed (keepCell seqId) (keepTail seqId) m.size m (m.seqKeep seqId) :=
    pass_spec h.used fun st i hsize hi hcell =>
      keepTurn_turn (hsize ▸ hi) (hcell ▸ h.vacant i hi) (hcell ▸ ha i hi)
  generalize m.seqKeep seqId = m' at hpass
  have hcell : ∀ i < m.size, m'.cell i = keepCell seqId (m.cell i) := by
    intro i hi
    rw [hpass.cell, if_pos hi]
  have hshrunk : Shrunk m m' := by
    refine ⟨hpass.size, fun i hi => ?_, fun i hi => ?_⟩
    · rw [hcell i hi, keepCell]
      split
      · case isTrue hin => exact Finset.singleton_subset_iff.2 hin.2
      · exact Finset.empty_subset _
    · rw [hcell i hi, keepCell]
      split
      · exact .inl ⟨rfl, fun he => (Finset.singleton_ne_empty _ he).elim⟩
      · exact .inr ⟨rfl, rfl⟩
  have hsets : ∀ i < m.size, (m'.cell i).seqId = m'.tailsAt i := by
    intro i hi
    ext a
    rw [hcell i hi, mem_tailsAt, hpass.size, hpass.tail]
    by_cases han : a < m.size
    · rw [if_pos han, and_iff_right han, keepCell, keepTail]
      have htail : m.tail a = some i ↔ a ∈ (m.cell i).seqId :=
        (h.tail_iff han).trans (and_iff_right hi)
      by_cases hid : (a : Int) = seqId
      · subst hid
        rw [if_neg (not_not.2 rfl), htail, Int.toNat_natCast]
        split
        · case isTrue hin => exact iff_of_true (Finset.mem_singleton_self a) hin.2
        · case isFalse hout =>
          exact iff_of_false (Finset.notMem_empty a) fun hm => hout ⟨Int.natCast_nonneg a, hm⟩
      · rw [if_pos hid]
        refine iff_of_false (fun hm => hid ?_) fun he => by cases he
        split at hm
        · case isTrue hin =>
          have := Finset.mem_singleton.1 hm
          omega
        · exact (Finset.notMem_empty a hm).elim
    · refine iff_of_false (fun hm => han ?_) fun hm => han hm.1
      have hin : a ∈ (m.cell i).seqId := (hcell i hi ▸ hshrunk.subset i hi) hm
      rw [h.sets i hi] at hin
      exact (mem_tailsAt.1 hin).1
  refine ⟨hshrunk.booked h (fun a ha' i hi => ?_) hsets (fun i hi he => ?_) hpass.used hpass.head,
    hshrunk⟩
  · rw [hpass.tail, if_pos ha', keepTail] at hi
    split at hi
    · cases hi
    · exact hi
  · rw [hcell i hi, keepCell] at he ⊢
    split at he
    · exact (Finset.singleton_ne_empty _ he).elim
    · case isFalse hout =>
      rw [if_neg hout]
      rfl

/-! ### Positions -/

/-- The position of the last token is changed to one that there is. -/
def PosAllowed (m : Memory) (seqId p₀ p₁ : Int) (f : Int → Option Int) : Prop :=
  ∀ t, m.tail seqId.toNat = some t → fromPos p₀ ≤ (m.cell t).pos → (m.cell t).pos < toPos p₁ →
    (f (m.cell t).pos).isSome

theorem mapPos_cases {m : Memory} {seqId p₀ p₁ : Int} {f : Int → Option Int}
    (ha : m.PosAllowed seqId p₀ p₁ f) :
    m.mapPos seqId p₀ p₁ f = some m ∨ ∃ t s p, s ∈ (m.cell t).seqId ∧
      m.mapPos seqId p₀ p₁ f = some (m.put t { m.cell t with pos := p }) := by
  rw [mapPos]
  split
  · cases ht : m.tail seqId.toNat with
    | none => exact .inl rfl
    | some t =>
      rw [Option.elim_some]
      dsimp only
      split
      · case isTrue h =>
        obtain ⟨p, hp⟩ := Option.isSome_iff_exists.1 (ha t ht h.2.1 h.2.2)
        exact .inr ⟨t, _, p, h.1, by rw [hp, Option.map_some]⟩
      · exact .inl rfl
  · exact .inl rfl

theorem Booked.mapPos {m : Memory} (h : m.Booked) {seqId p₀ p₁ : Int} {f : Int → Option Int}
    (ha : m.PosAllowed seqId p₀ p₁ f) :
    ∃ m', m.mapPos seqId p₀ p₁ f = some m' ∧ m'.Booked ∧ Shrunk m m' := by
  rcases mapPos_cases ha with he | ⟨t, s, p, hs, he⟩
  · exact ⟨m, he, h, .refl m⟩
  · refine ⟨_, he, ?_⟩
    have hset : ∀ i, ((m.put t { m.cell t with pos := p }).cell i).seqId = (m.cell i).seqId := by
      intro i
      by_cases hi : i = t
      · rw [hi, put_self]
      · rw [put_other hi]
    have hsrc : ∀ i, ((m.put t { m.cell t with pos := p }).cell i).src = (m.cell i).src := by
      intro i
      by_cases hi : i = t
      · rw [hi, put_self]
      · rw [put_other hi]
    have hshrunk : Shrunk m (m.put t { m.cell t with pos := p }) := by
      refine ⟨rfl, fun i _ => ?_, fun i _ => .inl ⟨hsrc i, fun he => ?_⟩⟩
      · rw [hset]
      · rwa [hset] at he
    refine ⟨hshrunk.booked h (fun _ _ _ hi => hi) (fun i hi => ?_) (fun i hi hempty => ?_) ?_
      (Nat.le_refl _), hshrunk⟩
    · rw [hset]
      exact h.sets i hi
    · rw [hset] at hempty
      by_cases hit : i = t
      · rw [hit] at hempty
        exact (Finset.ne_empty_of_mem hs hempty).elim
      · rw [put_other hit]
        exact h.vacant i hi hempty
    · refine h.used.trans (usedCells_congr (m := m) (n := m.put t _) rfl fun i _ => ?_).symm
      rw [hset]

theorem Booked.seqAdd {m : Memory} (h : m.Booked) {seqId p₀ p₁ shift : Int}
    (ha : shift ≠ 0 → m.PosAllowed seqId p₀ p₁ (addInt32 · shift)) :
    ∃ m', m.seqAdd seqId p₀ p₁ shift = some m' ∧ m'.Booked ∧ Shrunk m m' := by
  rw [Memory.seqAdd]
  split
  · exact ⟨m, rfl, h, .refl m⟩
  · case isFalse hshift => exact h.mapPos (ha hshift)

theorem Booked.seqDiv {m : Memory} (h : m.Booked) (seqId p₀ p₁ : Int) {d : Int} (hd : d ≠ 0) :
    ∃ m', m.seqDiv seqId p₀ p₁ d = some m' ∧ m'.Booked ∧ Shrunk m m' := by
  rw [Memory.seqDiv]
  split
  · exact ⟨m, rfl, h, .refl m⟩
  · refine h.mapPos fun t _ _ _ => ?_
    rw [quotient, if_neg hd]
    rfl

end Memory
end ActQuant.Recurrent
