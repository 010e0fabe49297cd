import ActQuant.Recurrent.Memory
import Mathlib.Data.Int.ConditionallyCompleteOrder

namespace ActQuant.Recurrent
open ActQuant.KvCache ActQuant.Lib

namespace Memory

/-! ### Removal -/

theorem rmCell_other (h : ¬ Touches s p₀ p₁ x) : rmCell s p₀ p₁ x = x := if_neg h

theorem rmCell_seqId (h : Touches s p₀ p₁ x) :
    (rmCell s p₀ p₁ x).seqId = s.elim ∅ x.seqId.erase := by
  rw [rmCell, if_pos h]
  dsimp only
  split
  · case isTrue he => rw [he, MemCell.vacate]
  · rfl

theorem rmCell_empty (h : Touches s p₀ p₁ x) (he : (rmCell s p₀ p₁ x).seqId = ∅) :
    rmCell s p₀ p₁ x = x.vacate := by
  rw [rmCell_seqId h] at he
  rw [rmCell, if_pos h]
  exact if_pos he

theorem rmCell_subset (s : Option Nat) (p₀ p₁ : Int) (x : MemCell) :
    (rmCell s p₀ p₁ x).seqId ⊆ x.seqId := by
  by_cases h : Touches s p₀ p₁ x
  · rw [rmCell_seqId h]
    cases s with
    | none => exact Finset.empty_subset _
    | some a => exact Finset.erase_subset _ _
  · rw [rmCell_other h]

/-- Either sequences are left, or none ever was, or the cell is vacated. -/
theorem rmCell_src (s : Option Nat) (p₀ p₁ : Int) (x : MemCell) :
    (rmCell s p₀ p₁ x).src = x.src ∧ ((rmCell s p₀ p₁ x).seqId = ∅ → x.seqId = ∅) ∨
      (rmCell s p₀ p₁ x).src = none ∧ (rmCell s p₀ p₁ x).seqId = ∅ := by
  by_cases h : Touches s p₀ p₁ x
  · by_cases he : (rmCell s p₀ p₁ x).seqId = ∅
    · rw [rmCell_empty h he]
      exact .inr ⟨rfl, rfl⟩
    · refine .inl ⟨?_, fun h => (he h).elim⟩
      rw [rmCell_seqId h] at he
      rw [rmCell, if_pos h]
      dsimp only
      rw [if_neg he]
  · rw [rmCell_other h]
    exact .inl ⟨rfl, id⟩

theorem rmTurn_turn {st : Memory × Nat} (hp : 0 ≤ p₀) (hi : i < st.1.size)
    (hv : (st.1.cell i).seqId = ∅ → (st.1.cell i).pos = -1) :
    Turn (rmCell s p₀ p₁) (fun _ t => t) (rmTurn s p₀ p₁) st i := by
  have htail : st.1.tail = Function.update st.1.tail i (st.1.tail i) :=
    (Function.update_eq_self i st.1.tail).symm
  by_cases h : Touches s p₀ p₁ (st.1.cell i) ∧ (rmCell s p₀ p₁ (st.1.cell i)).isEmpty = true
  · obtain ⟨htouch, hempty⟩ := id h
    have hpos : 0 ≤ (st.1.cell i).pos := le_trans hp htouch.1
    have hold : (st.1.cell i).seqId ≠ ∅ := by
      intro he
      rw [hv he] at hpos
      omega
    have hturn : rmTurn s p₀ p₁ st i = ({ st.1.put i (rmCell s p₀ p₁ (st.1.cell i)) with
        used := st.1.used - 1 }, if st.2 = st.1.size then i else st.2) := by
      rw [rmTurn]
      dsimp only
      rw [if_pos h, if_pos hpos]
    rw [MemCell.isEmpty_iff] at hempty
    constructor
    case used =>
      intro hused
      rw [hturn]
      dsimp only
      rw [hused]
      refine (usedCells_freed (m := st.1) (n := st.1.put i (rmCell s p₀ p₁ (st.1.cell i))) rfl
        (fun j hj => put_other hj ..) hi hold ?_).symm
      rw [put_self, hempty]
    all_goals rw [hturn]
    case cell | size | head => rfl
    case tail => exact htail
  · have hturn : rmTurn s p₀ p₁ st i = (st.1.put i (rmCell s p₀ p₁ (st.1.cell i)), st.2) := by
      rw [rmTurn]
      dsimp only
      exact if_neg h
    have hsame : (rmCell s p₀ p₁ (st.1.cell i)).seqId = ∅ ↔ (st.1.cell i).seqId = ∅ := by
      constructor
      · intro he
        by_cases htouch : Touches s p₀ p₁ (st.1.cell i)
        · exact (h ⟨htouch, MemCell.isEmpty_iff.2 he⟩).elim
        · rw [rmCell_other htouch] at he
          exact he
      · intro he
        exact Finset.subset_empty.1 (he ▸ rmCell_subset s p₀ p₁ _)
    constructor
    case used =>
      intro hused
      rw [hturn]
      refine hused.trans (usedCells_congr (m := st.1)
        (n := st.1.put i (rmCell s p₀ p₁ (st.1.cell i))) rfl fun j _ => ?_).symm
      by_cases hj : j = i
      · subst hj
        rw [put_self]
        exact hsame
      · rw [put_other hj]
    all_goals rw [hturn]
    case cell | size | head => rfl
    case tail => exact htail

theorem rmPass_passed {m : Memory} (hv : ∀ i < m.size, (m.cell i).seqId = ∅ → (m.cell i).pos = -1)
    (hused : m.used = m.usedCells) (hp : 0 ≤ p₀) :
    Passed (rmCell s p₀ p₁) (fun _ t => t) m.size m (m.rmPass s p₀ p₁) :=
  pass_spec hused fun _ i hsize hi hcell => rmTurn_turn hp (hsize ▸ hi) (hcell ▸ hv i hi)

theorem Passed.shrunk {m m' : Memory} (hp : Passed (rmCell s p₀ p₁) w m.size m m') :
    Shrunk m m' where
  size := hp.size
  subset := by
    intro i hi
    rw [hp.cell, if_pos hi]
    exact rmCell_subset s p₀ p₁ _
  src := by
    intro i hi
    rw [hp.cell, if_pos hi]
    exact rmCell_src s p₀ p₁ _

theorem Passed.vacant {m m' : Memory} (hp : Passed (rmCell s p₀ p₁) w m.size m m')
    (hv : ∀ i < m.size, (m.cell i).seqId = ∅ → (m.cell i).pos = -1) (hi : i < m.size)
    (he : (m'.cell i).seqId = ∅) : (m'.cell i).pos = -1 := by
  rw [hp.cell, if_pos hi] at he ⊢
  by_cases htouch : Touches s p₀ p₁ (m.cell i)
  · rw [rmCell_empty htouch he]
    rfl
  · rw [rmCell_other htouch] at he ⊢
    exact hv i hi he

/-- The pass for one sequence, whose tail was cleared where its cell is in the range. -/
theorem Booked.rmPass {m : Memory} (h : m.Booked) (hs : s < m.size) (hp : 0 ≤ p₀)
    (hv : v = m.tail s ∨ v = none)
    (htouch : ∀ i < m.size, Touches (some s) p₀ p₁ (m.cell i) ↔ m.tail s = some i ∧ v = none) :
    ((m.setTail s v).rmPass (some s) p₀ p₁).Booked ∧
      Shrunk m ((m.setTail s v).rmPass (some s) p₀ p₁) := by
  have hpass : Passed (rmCell (some s) p₀ p₁) (fun _ t => t) (m.setTail s v).size (m.setTail s v)
      ((m.setTail s v).rmPass (some s) p₀ p₁) :=
    rmPass_passed (m := m.setTail s v) h.vacant h.used hp
  generalize (m.setTail s v).rmPass (some s) p₀ p₁ = m' at hpass
  have hshrunk : Shrunk m m' := ⟨hpass.shrunk.size, hpass.shrunk.subset, hpass.shrunk.src⟩
  have htail : m'.tail = Function.update m.tail s v := by
    funext a
    rw [hpass.tail, ite_self]
    rfl
  have hsets : ∀ i < m.size, (m'.cell i).seqId = m'.tailsAt i := by
    intro i hi
    have hcell : m'.cell i = rmCell (some s) p₀ p₁ (m.cell i) := by
      rw [hpass.cell]
      exact if_pos hi
    rw [hcell, tailsAt, htail, hshrunk.size]
    by_cases ht : Touches (some s) p₀ p₁ (m.cell i)
    · rw [rmCell_seqId ht, ((htouch i hi).1 ht).2, fibre_update_other fun hn => by cases hn]
      exact congrArg (·.erase s) (h.sets i hi)
    · rw [rmCell_other ht, h.sets i hi]
      rcases hv with rfl | rfl
      · rw [Function.update_eq_self]
        rfl
      · rw [fibre_update_other fun hn => by cases hn]
        refine (Finset.erase_eq_of_notMem fun hm => ht ((htouch i hi).2 ⟨?_, rfl⟩)).symm
        exact (mem_fibre.1 hm).2
  refine ⟨hshrunk.booked h (fun a _ i hi => ?_) hsets
    (fun i hi => hpass.vacant h.vacant hi) hpass.used hpass.head, hshrunk⟩
  rw [htail] at hi
  by_cases ha : a = s
  · subst ha
    rw [Function.update_self] at hi
    rcases hv with rfl | rfl
    · exact hi
    · cases hi
  · rwa [Function.update_of_ne ha] at hi

theorem Booked.seqRmOf {m : Memory} (h : m.Booked) (hs : s < m.size) (hp : 0 ≤ p₀) :
    (m.seqRmOf s p₀ p₁).2.Booked ∧ Shrunk m (m.seqRmOf s p₀ p₁).2 := by
  have htouch : ∀ i, Touches (some s) p₀ p₁ (m.cell i) → i < m.size → m.tail s = some i :=
    fun i ht hi => (h.tail_iff hs).2 ⟨hi, ht.2.2 s rfl⟩
  have hsame : m.setTail s (m.tail s) = m := by
    rw [setTail, Function.update_eq_self]
  rw [Memory.seqRmOf]
  cases ht : m.tail s with
  | none =>
    have hpass : ((m.setTail s (m.tail s)).rmPass (some s) p₀ p₁).Booked ∧ Shrunk m _ :=
      h.rmPass hs hp (.inl rfl) fun i hi => by
      rw [ht]
      refine iff_of_false (fun hi' => ?_) fun hi' => by cases hi'.1
      have hnone := htouch i hi' hi
      rw [ht] at hnone
      cases hnone
    rw [hsame] at hpass
    exact hpass
  | some t =>
    obtain ⟨htn, hmem⟩ := (h.tail_iff hs).1 ht
    rw [Option.elim_some]
    dsimp only
    split
    · exact ⟨h, .refl m⟩
    · split
      · case isTrue hrange =>
        refine h.rmPass hs hp (.inr rfl) fun i hi => ⟨fun hi' => ⟨htouch i hi' hi, rfl⟩, ?_⟩
        rintro ⟨hi', -⟩
        obtain rfl : t = i := Option.some.inj (ht.symm.trans hi')
        exact ⟨hrange.1, hrange.2, fun a ha => Option.some.inj ha ▸ hmem⟩
      · case isFalse hrange =>
        have hpass : ((m.setTail s (m.tail s)).rmPass (some s) p₀ p₁).Booked ∧ Shrunk m _ :=
          h.rmPass hs hp (.inl rfl) fun i hi => by
          rw [ht]
          refine iff_of_false (fun hi' => hrange ?_) fun hi' => by cases hi'.2
          obtain rfl : t = i := Option.some.inj (ht.symm.trans (htouch i hi' hi))
          exact ⟨hi'.1, hi'.2.1⟩
        rw [hsame] at hpass
        exact hpass

/-- A removal for all sequences leaves their tails, so that it must not find a cell in use. -/
def RmAllowed (m : Memory) (seqId p₀ p₁ : Int) : Prop :=
  seqId < 0 → fromPos p₀ = 0 → toPos p₁ = posMax →
    ∀ i < m.size, (m.cell i).seqId ≠ ∅ → ¬ (0 ≤ (m.cell i).pos ∧ (m.cell i).pos < posMax)

instance (m : Memory) (seqId p₀ p₁ : Int) : Decidable (m.RmAllowed seqId p₀ p₁) :=
  inferInstanceAs (Decidable (_ → _))

theorem Booked.rmPass_untouched {m : Memory} (h : m.Booked) (hp : 0 ≤ p₀)
    (htouch : ∀ i < m.size, ¬ Touches s p₀ p₁ (m.cell i)) :
    (m.rmPass s p₀ p₁).Booked ∧ Shrunk m (m.rmPass s p₀ p₁) := by
  have hpass : Passed (rmCell s p₀ p₁) (fun _ t => t) m.size m (m.rmPass s p₀ p₁) :=
    rmPass_passed h.vacant h.used hp
  have htail : (m.rmPass s p₀ p₁).tail = m.tail := by
    funext a
    rw [hpass.tail, ite_self]
  refine ⟨hpass.shrunk.booked h (fun a _ i hi => htail ▸ hi) (fun i hi => ?_)
    (fun i hi => hpass.vacant h.vacant hi) hpass.used hpass.head, hpass.shrunk⟩
  rw [hpass.cell, if_pos hi, rmCell_other (htouch i hi), h.sets i hi, tailsAt, tailsAt, htail,
    hpass.size]

theorem Booked.seqRm {m : Memory} (h : m.Booked) (ha : m.RmAllowed seqId p₀ p₁) :
    (m.seqRm seqId p₀ p₁).2.Booked ∧ Shrunk m (m.seqRm seqId p₀ p₁).2 := by
  rw [Memory.seqRm]
  split
  · exact ⟨h, .refl m⟩
  · case isFalse hsize =>
    split
    · case isTrue hid => exact h.seqRmOf (by omega) (fromPos_nonneg p₀)
    · case isFalse hid =>
      split
      · exact ⟨h, .refl m⟩
      · case isFalse hrange =>
        refine h.rmPass_untouched (fromPos_nonneg p₀) fun i hi ht => ?_
        obtain ⟨hlow, hhigh, -⟩ := ht
        by_cases he : fromPos p₀ = toPos p₁
        · omega
        · have hzero : fromPos p₀ = 0 ∧ toPos p₁ = posMax := by
            by_contra hno
            exact hrange ⟨he, by omega⟩
          rw [hzero.1] at hlow
          rw [hzero.2] at hhigh
          refine ha (by omega) hzero.1 hzero.2 i hi (fun hempty => ?_) ⟨hlow, hhigh⟩
          rw [h.vacant i hi hempty] at hlow
          omega

end Memory
end ActQuant.Recurrent

namespace ActQuant.Recurrent
open ActQuant.Batch ActQuant.KvCache ActQuant.Lib

namespace Memory

/-! What a removal makes of the tokens of a sequence. A state has taken in the tokens of its
sequence in the order of their positions, and its cell has the last of these. -/

/-- The cell with the state of a sequence. -/
def cellOf (m : Memory) (s : Nat) : Option Nat :=
  (m.tail s).filter fun t => t < m.size ∧ s ∈ (m.cell t).seqId

/-- The positions of the tokens of a sequence that begins at `first`, below zero perhaps after a
shift. -/
def tokens (m : Memory) (first : Nat → Int) (s : Nat) : Set Int :=
  {p | ∃ t, m.cellOf s = some t ∧ first s ≤ p ∧ p ≤ (m.cell t).pos}

/-- The sequence has the cell that it had, with the same state. -/
def SameState (m m' : Memory) (s : Nat) : Prop :=
  m'.cellOf s = m.cellOf s ∧ ∀ t, m.cellOf s = some t →
    (m'.cell t).pos = (m.cell t).pos ∧ (m'.cell t).src = (m.cell t).src

/-- All or nothing: either the removal is refused and the memory is as it was, or just the tokens
of the range are gone. -/
def RemovesExactly (m : Memory) (first : Nat → Int) (seqId p₀ p₁ : Int) : Prop :=
  m.seqRm seqId p₀ p₁ = (false, m) ∨ (m.seqRm seqId p₀ p₁).1 = true ∧ ∀ s : Nat,
    if seqId < 0 ∨ seqId = s then
      (m.seqRm seqId p₀ p₁).2.tokens first s =
        m.tokens first s \ Set.Ico (fromPos p₀) (toPos p₁)
    else SameState m (m.seqRm seqId p₀ p₁).2 s

/-- The range begins at the last position of a sequence or at zero, takes in the last position, and
the sequence has earlier tokens. For all sequences, one of them has tokens below zero, or the range
does not reach the last position there is. -/
def CutsHistory (m : Memory) (first : Nat → Int) (seqId p₀ p₁ : Int) : Prop :=
  (0 ≤ seqId ∧ seqId < m.size ∧ ∃ t, m.cellOf seqId.toNat = some t ∧
    (fromPos p₀ = 0 ∨ fromPos p₀ = (m.cell t).pos) ∧ fromPos p₀ ≤ (m.cell t).pos ∧
      (m.cell t).pos < toPos p₁ ∧ first seqId.toNat < fromPos p₀) ∨
  seqId < 0 ∧ fromPos p₀ = 0 ∧ toPos p₁ = posMax ∧
    ∃ s t, m.cellOf s = some t ∧ (posMax ≤ (m.cell t).pos ∧ first s < posMax ∨
      0 ≤ (m.cell t).pos ∧ (m.cell t).pos < posMax ∧ first s < 0)

theorem cellOf_eq_some {m : Memory} :
    m.cellOf s = some t ↔ m.tail s = some t ∧ t < m.size ∧ s ∈ (m.cell t).seqId := by
  rw [cellOf, Option.filter_eq_some_iff, decide_eq_true_eq]

theorem mem_tokens {m : Memory} (h : m.cellOf s = some t) :
    p ∈ m.tokens first s ↔ first s ≤ p ∧ p ≤ (m.cell t).pos := by
  constructor
  · rintro ⟨t', ht', hp⟩
    obtain rfl : t = t' := Option.some.inj (h.symm.trans ht')
    exact hp
  · exact fun hp => ⟨t, h, hp⟩

theorem tokens_none {m : Memory} (h : m.cellOf s = none) : m.tokens first s = ∅ := by
  rw [Set.eq_empty_iff_forall_notMem]
  rintro p ⟨t, ht, _⟩
  rw [h] at ht
  cases ht

theorem SameState.tokens {m m' : Memory} (h : SameState m m' s) :
    m'.tokens first s = m.tokens first s := by
  cases ht : m.cellOf s with
  | none => rw [tokens_none ht, tokens_none (h.1.trans ht)]
  | some t =>
    ext p
    rw [mem_tokens ht, mem_tokens (h.1.trans ht), (h.2 t ht).1]

/-! ### The pass -/

theorem rmTurn_fields (s : Option Nat) (p₀ p₁ : Int) (st : Memory × Nat) (i : Nat) :
    (rmTurn s p₀ p₁ st i).1.size = st.1.size ∧ (rmTurn s p₀ p₁ st i).1.tail = st.1.tail ∧
      (rmTurn s p₀ p₁ st i).1.cell =
        Function.update st.1.cell i (rmCell s p₀ p₁ (st.1.cell i)) := by
  rw [rmTurn]
  dsimp only
  split_ifs
  · exact ⟨rfl, rfl, rfl⟩
  · exact ⟨rfl, rfl, rfl⟩
  · exact ⟨rfl, rfl, rfl⟩
  · exact ⟨rfl, rfl, rfl⟩
  · exact ⟨rfl, rfl, rfl⟩

/-- Whatever the memory is, every cell is visited once, and no tail changes. -/
theorem rmPass_fields (m : Memory) (s : Option Nat) (p₀ p₁ : Int) :
    (m.rmPass s p₀ p₁).size = m.size ∧ (m.rmPass s p₀ p₁).tail = m.tail ∧
      ∀ i, (m.rmPass s p₀ p₁).cell i =
        if i < m.size then rmCell s p₀ p₁ (m.cell i) else m.cell i := by
  have hpass : ∀ n, let st := (List.range n).foldl (rmTurn s p₀ p₁) (m, m.size)
      st.1.size = m.size ∧ st.1.tail = m.tail ∧
        ∀ i, st.1.cell i = if i < n then rmCell s p₀ p₁ (m.cell i) else m.cell i := by
    intro n
    induction n with
    | zero => exact ⟨rfl, rfl, fun i => (if_neg (Nat.not_lt_zero i)).symm⟩
    | succ n ih =>
      obtain ⟨hsize, htail, hcell⟩ := ih
      rw [List.range_succ, List.foldl_append, List.foldl_cons, List.foldl_nil]
      generalize (List.range n).foldl (rmTurn s p₀ p₁) (m, m.size) = st at hsize htail hcell
      obtain ⟨hsize', htail', hcell'⟩ := rmTurn_fields s p₀ p₁ st n
      refine ⟨hsize'.trans hsize, htail'.trans htail, fun i => ?_⟩
      rw [hcell']
      by_cases hi : i = n
      · subst hi
        rw [Function.update_self, hcell, if_neg (Nat.lt_irrefl i), if_pos (Nat.lt_succ_self i)]
      · rw [Function.update_of_ne hi, hcell]
        exact if_congr (by omega) rfl rfl
  obtain ⟨hsize, htail, hcell⟩ := hpass m.size
  exact ⟨hsize, htail, hcell⟩

/-- A sequence that does not leave the cell has its state there. -/
theorem rmCell_stays (h : (∃ a, s = some a ∧ a ≠ b) ∨ ¬ Touches s p₀ p₁ x) (hb : b ∈ x.seqId) :
    b ∈ (rmCell s p₀ p₁ x).seqId ∧ (rmCell s p₀ p₁ x).pos = x.pos ∧
      (rmCell s p₀ p₁ x).src = x.src := by
  by_cases ht : Touches s p₀ p₁ x
  · obtain ⟨a, rfl, hne⟩ := h.resolve_right fun hno => hno ht
    have hmem : b ∈ x.seqId.erase a := Finset.mem_erase.2 ⟨hne.symm, hb⟩
    have hleft : x.seqId.erase a ≠ ∅ := Finset.ne_empty_of_mem hmem
    rw [rmCell, if_pos ht]
    dsimp only
    rw [Option.elim_some, if_neg hleft]
    exact ⟨hmem, rfl, rfl⟩
  · rw [rmCell_other ht]
    exact ⟨hb, rfl, rfl⟩

/-- A pass that takes no sequence but others out of its cell leaves a sequence its state. -/
theorem sameState_rmPass {m n : Memory} (htail : n.tail b = m.tail b) (hcell : n.cell = m.cell)
    (hsize : n.size = m.size) (h : ∀ t, m.cellOf b = some t →
      (∃ a, s = some a ∧ a ≠ b) ∨ ¬ Touches s p₀ p₁ (m.cell t)) :
    SameState m (n.rmPass s p₀ p₁) b := by
  obtain ⟨hsize', htail', hcell'⟩ := rmPass_fields n s p₀ p₁
  have hafter : ∀ t < m.size, (n.rmPass s p₀ p₁).cell t = rmCell s p₀ p₁ (m.cell t) := by
    intro t hlt
    rw [hcell', hcell, if_pos (hsize.symm ▸ hlt)]
  constructor
  · apply Option.ext
    intro t
    rw [cellOf_eq_some, cellOf_eq_some, htail', htail, hsize', hsize]
    apply and_congr_right
    intro ht
    apply and_congr_right
    intro hlt
    rw [hafter t hlt]
    constructor
    · exact fun hmem => rmCell_subset s p₀ p₁ _ hmem
    · exact fun hmem => (rmCell_stays (h t (cellOf_eq_some.2 ⟨ht, hlt, hmem⟩)) hmem).1
  · intro t ht
    obtain ⟨_, hlt, hmem⟩ := cellOf_eq_some.1 ht
    rw [hafter t hlt]
    exact (rmCell_stays (h t ht) hmem).2

/-- A sequence that the pass takes out of its cell has no tokens afterwards. -/
theorem tokens_gone {m : Memory} (h : ∀ t, m.cellOf b = some t →
    b ∉ (rmCell s p₀ p₁ (m.cell t)).seqId) : (m.rmPass s p₀ p₁).tokens first b = ∅ := by
  obtain ⟨hsize, htail, hcell⟩ := rmPass_fields m s p₀ p₁
  apply tokens_none
  rw [Option.eq_none_iff_forall_not_mem]
  intro t ht
  obtain ⟨ht, hlt, hmem⟩ := cellOf_eq_some.1 ht
  rw [htail] at ht
  rw [hsize] at hlt
  rw [hcell, if_pos hlt] at hmem
  exact h t (cellOf_eq_some.2 ⟨ht, hlt, rmCell_subset s p₀ p₁ _ hmem⟩) hmem

/-! ### Removals for one sequence -/

/-- Where the range is accepted it is empty, behind the last position, or it takes this in from the
first or from the last token on. -/
theorem range_cases {pos : Int} (hp : 0 ≤ p₀) (h : ¬ (0 < p₀ ∧ p₀ < pos ∨ 0 < p₁ ∧ p₁ ≤ pos)) :
    p₁ ≤ 0 ∨ pos < p₀ ∨ p₀ = 0 ∧ pos < p₁ ∨ p₀ = pos ∧ pos < p₁ := by
  omega

theorem seqRmOf_exact {m : Memory} (first : Nat → Int) (hp : 0 ≤ p₀) (s : Nat) :
    (m.seqRmOf s p₀ p₁ = (false, m) ∨ (m.seqRmOf s p₀ p₁).1 = true ∧
      (m.seqRmOf s p₀ p₁).2.tokens first s = m.tokens first s \ Set.Ico p₀ p₁) ↔
    ¬ ∃ t, m.cellOf s = some t ∧ (p₀ = 0 ∨ p₀ = (m.cell t).pos) ∧ p₀ ≤ (m.cell t).pos ∧
      (m.cell t).pos < p₁ ∧ first s < p₀ := by
  rw [Memory.seqRmOf]
  cases htail : m.tail s with
  | none =>
    have hnone : m.cellOf s = none := by
      rw [cellOf, htail]
      rfl
    refine iff_of_true (.inr ⟨rfl, ?_⟩) ?_
    · rw [Option.elim_none, tokens_none hnone, Set.empty_sdiff]
      apply tokens_gone
      intro t ht
      rw [hnone] at ht
      cases ht
    · rintro ⟨t, ht, _⟩
      rw [hnone] at ht
      cases ht
  | some t =>
    rw [Option.elim_some]
    dsimp only
    by_cases hrefused : 0 < p₀ ∧ p₀ < (m.cell t).pos ∨ 0 < p₁ ∧ p₁ ≤ (m.cell t).pos
    · rw [if_pos hrefused]
      refine iff_of_true (.inl rfl) ?_
      rintro ⟨t', ht', hstart, hlow, hend, hfirst⟩
      obtain rfl : t = t' := Option.some.inj (htail.symm.trans (cellOf_eq_some.1 ht').1)
      omega
    · rw [if_neg hrefused]
      have hnot (n : Memory) : ((true, n) : Bool × Memory) ≠ (false, m) :=
        fun h => Bool.noConfusion (congrArg Prod.fst h)
      rw [or_iff_right (hnot _), and_iff_right rfl]
      by_cases hin : p₀ ≤ (m.cell t).pos ∧ (m.cell t).pos < p₁
      · rw [if_pos hin]
        have hgone : ((m.setTail s none).rmPass (some s) p₀ p₁).tokens first s = ∅ := by
          apply tokens_gone
          intro t' ht'
          have hnone := (cellOf_eq_some.1 ht').1
          rw [setTail_tail, Function.update_self] at hnone
          cases hnone
        rw [hgone, eq_comm, Set.sdiff_eq_empty]
        constructor
        · rintro hsub ⟨t', ht', -, hlow, hend, hfirst⟩
          obtain rfl : t = t' := Option.some.inj (htail.symm.trans (cellOf_eq_some.1 ht').1)
          have hmem := hsub ((mem_tokens ht').2 ⟨le_rfl, hfirst.le.trans hlow⟩)
          have hle := hmem.1
          omega
        · intro hno p hmem
          obtain ⟨t', ht', hlow, hhigh⟩ := hmem
          obtain rfl : t = t' := Option.some.inj (htail.symm.trans (cellOf_eq_some.1 ht').1)
          refine ⟨?_, by omega⟩
          by_contra hlt
          exact hno ⟨t, ht', by omega, hin.1, hin.2, by omega⟩
      · rw [if_neg hin]
        have hsame : SameState m (m.rmPass (some s) p₀ p₁) s := by
          apply sameState_rmPass rfl rfl rfl
          intro t' ht'
          obtain rfl : t = t' := Option.some.inj (htail.symm.trans (cellOf_eq_some.1 ht').1)
          exact .inr fun htouch => hin ⟨htouch.1, htouch.2.1⟩
        rw [hsame.tokens]
        refine iff_of_true ?_ ?_
        · symm
          rw [sdiff_eq_left, Set.disjoint_left]
          rintro p ⟨t', ht', hlow, hhigh⟩ ⟨hstart, hend⟩
          obtain rfl : t = t' := Option.some.inj (htail.symm.trans (cellOf_eq_some.1 ht').1)
          rcases range_cases hp hrefused with h | h | ⟨h, h'⟩ | ⟨h, h'⟩ <;> omega
        · rintro ⟨t', ht', hstart, hlow, hend, hfirst⟩
          obtain rfl : t = t' := Option.some.inj (htail.symm.trans (cellOf_eq_some.1 ht').1)
          exact hin ⟨hlow, hend⟩

/-- The other sequences keep their states, also those that share the cell. -/
theorem seqRmOf_other {m : Memory} (s : Nat) (p₀ p₁ : Int) (hne : s ≠ b) :
    SameState m (m.seqRmOf s p₀ p₁).2 b := by
  have hpass {n : Memory} (htail : n.tail b = m.tail b) (hcell : n.cell = m.cell)
      (hsize : n.size = m.size) : SameState m (n.rmPass (some s) p₀ p₁) b :=
    sameState_rmPass htail hcell hsize fun _ _ => .inl ⟨s, rfl, hne⟩
  rw [Memory.seqRmOf]
  cases htail : m.tail s with
  | none => exact hpass rfl rfl rfl
  | some t =>
    rw [Option.elim_some]
    dsimp only
    split_ifs
    · exact ⟨rfl, fun _ _ => ⟨rfl, rfl⟩⟩
    · exact hpass (Function.update_of_ne hne.symm ..) rfl rfl
    · exact hpass rfl rfl rfl

/-! ### Removals for all sequences -/

theorem tokens_rmPass_all_gone {m : Memory} (ht : m.cellOf s = some t)
    (htouch : Touches none 0 posMax (m.cell t)) :
    (m.rmPass none 0 posMax).tokens first s = ∅ := by
  apply tokens_gone
  intro t' ht'
  obtain rfl : t = t' := Option.some.inj (ht.symm.trans ht')
  rw [rmCell_seqId htouch, Option.elim_none]
  exact Finset.notMem_empty s

theorem tokens_rmPass_all_kept {m : Memory} (first : Nat → Int)
    (h : ∀ t, m.cellOf s = some t → ¬ Touches none 0 posMax (m.cell t)) :
    (m.rmPass none 0 posMax).tokens first s = m.tokens first s :=
  (sameState_rmPass rfl rfl rfl fun t ht => .inr (h t ht)).tokens

/-- A sequence loses what it should, but for a history that starts below the range or ends behind
it. -/
theorem rmPass_all_exact_at {m : Memory} (ht : m.cellOf s = some t) :
    (m.rmPass none 0 posMax).tokens first s = m.tokens first s \ Set.Ico 0 posMax ↔
      ¬ (posMax ≤ (m.cell t).pos ∧ first s < posMax ∨
        0 ≤ (m.cell t).pos ∧ (m.cell t).pos < posMax ∧ first s < 0) := by
  have hmax : 0 < posMax := by decide
  by_cases htouch : Touches none 0 posMax (m.cell t)
  · rw [tokens_rmPass_all_gone ht htouch, eq_comm, Set.sdiff_eq_empty]
    obtain ⟨hlow, hhigh, _⟩ := htouch
    constructor
    · intro hsub hfirst
      have hmem : first s ∈ m.tokens first s := (mem_tokens ht).2 ⟨le_rfl, by omega⟩
      have hstart := (hsub hmem).1
      omega
    · intro hno p hp
      obtain ⟨hstart, hend⟩ := (mem_tokens ht).1 hp
      exact ⟨by omega, by omega⟩
  · have hout : ¬ (0 ≤ (m.cell t).pos ∧ (m.cell t).pos < posMax) :=
      fun h => htouch ⟨h.1, h.2, fun _ ha => by cases ha⟩
    have hkept := tokens_rmPass_all_kept first fun t' ht' => by
      rwa [← Option.some.inj (ht.symm.trans ht')]
    rw [hkept, eq_comm, sdiff_eq_left, Set.disjoint_left]
    constructor
    · intro hdisj hfirst
      have hmem : max (first s) 0 ∈ m.tokens first s := (mem_tokens ht).2 ⟨by omega, by omega⟩
      exact hdisj hmem ⟨by omega, by omega⟩
    · intro hno p hp hin
      obtain ⟨hstart, hend⟩ := (mem_tokens ht).1 hp
      obtain ⟨hlow, hhigh⟩ := hin
      omega

theorem rmPass_all_exact {m : Memory} (first : Nat → Int) :
    (∀ s, (m.rmPass none 0 posMax).tokens first s = m.tokens first s \ Set.Ico 0 posMax) ↔
      ¬ ∃ s t, m.cellOf s = some t ∧ (posMax ≤ (m.cell t).pos ∧ first s < posMax ∨
        0 ≤ (m.cell t).pos ∧ (m.cell t).pos < posMax ∧ first s < 0) := by
  constructor
  · rintro hall ⟨s, t, ht, hends⟩
    exact (rmPass_all_exact_at ht).1 (hall s) hends
  · intro hno s
    cases ht : m.cellOf s with
    | none =>
      have hkept := tokens_rmPass_all_kept first fun t' ht' => by
        rw [ht] at ht'
        cases ht'
      rw [hkept, tokens_none ht, Set.empty_sdiff]
    | some t => exact (rmPass_all_exact_at ht).2 fun hends => hno ⟨s, t, ht, hends⟩

/-- A removal for all sequences with an empty range touches nothing. -/
theorem rmPass_none_exact {m : Memory} (first : Nat → Int) (p : Int) (s : Nat) :
    (m.rmPass none p p).tokens first s = m.tokens first s \ Set.Ico p p := by
  have hsame : SameState m (m.rmPass none p p) s := by
    apply sameState_rmPass rfl rfl rfl
    intro t _
    refine .inr fun htouch => ?_
    have hstart := htouch.1
    have hend := htouch.2.1
    omega
  rw [hsame.tokens, Set.Ico_self, Set.sdiff_empty]

/-- A prompt of two tokens of one sequence. -/
def twoInOrder : Ubatch := ⟨true, 1, [⟨0, [0], false⟩, ⟨1, [0], true⟩]⟩

end Memory
end ActQuant.Recurrent
