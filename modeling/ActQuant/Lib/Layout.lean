import Mathlib.Algebra.BigOperators.Group.List.Basic
import Mathlib.Algebra.Order.Ring.Nat

namespace ActQuant.Lib

/-- The next multiple of an alignment. -/
def padTo (alignment n : Nat) : Nat := (n + alignment - 1) / alignment * alignment

/-- Where each of a run of sections starts, the end of each one padded. -/
def paddedOffsets (alignment : Nat) : Nat → List Nat → List Nat
  | _, [] => []
  | start, n :: ns => start :: paddedOffsets alignment (start + padTo alignment n) ns

theorem paddedOffsets_add (alignment k start : Nat) (ns : List Nat) :
    paddedOffsets alignment (k + start) ns = (paddedOffsets alignment start ns).map (k + ·) := by
  induction ns generalizing start with
  | nil => rfl
  | cons n ns ih =>
    rw [paddedOffsets, paddedOffsets, List.map_cons, Nat.add_assoc, ih]

theorem padTo_mono (alignment : Nat) (h : m ≤ n) : padTo alignment m ≤ padTo alignment n :=
  Nat.mul_le_mul_right _ (Nat.div_le_div_right (by omega))

theorem dvd_padTo (alignment n : Nat) : alignment ∣ padTo alignment n :=
  Nat.dvd_mul_left _ _

theorem le_padTo (h : 0 < alignment) (n : Nat) : n ≤ padTo alignment n := by
  have hdiv := Nat.div_add_mod (n + alignment - 1) alignment
  have hmod := Nat.mod_lt (n + alignment - 1) h
  rw [Nat.mul_comm] at hdiv
  rw [padTo]
  omega

theorem padTo_of_dvd (h : 0 < alignment) (hdvd : alignment ∣ n) : padTo alignment n = n := by
  obtain ⟨k, rfl⟩ := hdvd
  rw [padTo, Nat.add_sub_assoc h, Nat.mul_add_div h, Nat.div_eq_of_lt (Nat.sub_lt h Nat.one_pos),
    Nat.add_zero, Nat.mul_comm]

theorem padTo_add (h : 0 < alignment) (hdvd : alignment ∣ k) (n : Nat) :
    padTo alignment (k + n) = k + padTo alignment n := by
  obtain ⟨m, rfl⟩ := hdvd
  rw [padTo, padTo, Nat.add_assoc, Nat.add_sub_assoc (by omega), Nat.mul_add_div h, Nat.add_mul,
    Nat.mul_comm m]

/-- A section with its start. -/
abbrev Section := Nat × Nat

/-- The sections that lie one behind the other from a start on. -/
inductive Laid (alignment : Nat) : Nat → List Section → Nat → Prop where
  | nil : Laid alignment start [] start
  | cons (h : Laid alignment (start + padTo alignment n) sections stop) :
      Laid alignment start ((start, n) :: sections) stop

section Laid
variable {alignment : Nat} {sections : List Section}

theorem Laid.le (h : Laid alignment start sections stop) : start ≤ stop := by
  induction h with
  | nil => exact Nat.le_refl _
  | cons _ ih => exact Nat.le_trans (Nat.le_add_right _ _) ih

theorem Laid.stop_eq (h : Laid alignment start sections stop) :
    stop = start + (sections.map fun s => padTo alignment s.2).sum := by
  induction h with
  | nil => rfl
  | cons _ ih => rw [ih, List.map_cons, List.sum_cons, Nat.add_assoc]

theorem Laid.start_le (h : Laid alignment start sections stop) :
    ∀ s ∈ sections, start ≤ s.1 := by
  induction h with
  | nil => exact fun s hs => absurd hs List.not_mem_nil
  | cons _ ih =>
    intro s hs
    obtain rfl | hs := List.mem_cons.1 hs
    · exact Nat.le_refl _
    · exact Nat.le_trans (Nat.le_add_right _ _) (ih s hs)

theorem Laid.end_le (h : Laid alignment start sections stop) (ha : 0 < alignment) :
    ∀ s ∈ sections, s.1 + s.2 ≤ stop := by
  induction h with
  | nil => exact fun s hs => absurd hs List.not_mem_nil
  | cons hrest ih =>
    intro s hs
    obtain rfl | hs := List.mem_cons.1 hs
    · exact Nat.le_trans (Nat.add_le_add_left (le_padTo ha _) _) hrest.le
    · exact ih s hs

theorem Laid.dvd (h : Laid alignment start sections stop) (hstart : alignment ∣ start) :
    ∀ s ∈ sections, alignment ∣ s.1 := by
  induction h with
  | nil => exact fun s hs => absurd hs List.not_mem_nil
  | cons _ ih =>
    intro s hs
    obtain rfl | hs := List.mem_cons.1 hs
    · exact hstart
    · exact ih (Nat.dvd_add hstart (dvd_padTo _ _)) s hs

theorem Laid.dvd_stop (h : Laid alignment start sections stop) (hstart : alignment ∣ start) :
    alignment ∣ stop := by
  induction h with
  | nil => exact hstart
  | cons _ ih => exact ih (Nat.dvd_add hstart (dvd_padTo _ _))

/-- Each section ends before those behind it start. -/
theorem Laid.pairwise (h : Laid alignment start sections stop) (ha : 0 < alignment) :
    sections.Pairwise fun s s' => s.1 + s.2 ≤ s'.1 := by
  induction h with
  | nil => exact .nil
  | cons hrest ih =>
    refine .cons ?_ ih
    intro s hs
    exact Nat.le_trans (Nat.add_le_add_left (le_padTo ha _) _) (hrest.start_le s hs)

/-- Padded to `b`, sections of some sizes start where they do padded to `a`, and end no later. -/
def PadsAgree (a b : Nat) : List Nat → Prop
  | [] => True
  | [n] => padTo b n ≤ padTo a n
  | n :: n' :: ns => padTo b n = padTo a n ∧ PadsAgree a b (n' :: ns)

theorem padsAgree_self (a : Nat) (ns : List Nat) : PadsAgree a a ns := by
  induction ns with
  | nil => trivial
  | cons n ns ih =>
    cases ns with
    | nil => exact Nat.le_refl _
    | cons n' ns => exact ⟨rfl, ih⟩

theorem Laid.head_eq (h : Laid alignment start (s :: sections) stop) : s.1 = start := by
  cases h
  rfl

theorem Laid.starts_eq (h : Laid alignment start sections stop) :
    sections.map Prod.fst = paddedOffsets alignment start (sections.map Prod.snd) := by
  induction h with
  | nil => rfl
  | cons _ ih => exact congrArg _ ih

/-- Sections that lie by one alignment lie by another one, and in the same room, just where the
paddings agree. -/
theorem laid_iff_padsAgree (h : Laid a start sections stop) :
    (∃ stop', Laid b start sections stop' ∧ stop' ≤ stop) ↔
      PadsAgree a b (sections.map Prod.snd) := by
  induction h with
  | @nil start => exact iff_of_true ⟨start, .nil, Nat.le_refl _⟩ trivial
  | @cons start n sections stop hrest ih =>
    cases sections with
    | nil =>
      cases hrest
      constructor
      · rintro ⟨stop', hlaid, hle⟩
        cases hlaid with
        | cons hlaid =>
          cases hlaid
          exact Nat.le_of_add_le_add_left hle
      · intro hle
        exact ⟨_, .cons .nil, Nat.add_le_add_left hle _⟩
    | cons s sections =>
      constructor
      · rintro ⟨stop', hlaid, hle⟩
        cases hlaid with
        | cons hlaid =>
          have heq := hlaid.head_eq.symm.trans hrest.head_eq
          refine ⟨Nat.add_left_cancel heq, ih.1 ⟨stop', ?_, hle⟩⟩
          rwa [heq] at hlaid
      · rintro ⟨hpad, hagree⟩
        obtain ⟨stop', hlaid, hle⟩ := ih.2 hagree
        rw [← hpad] at hlaid
        exact ⟨stop', .cons hlaid, hle⟩

end Laid

/-- The offsets of consecutive blocks, from the first block's up to the end of the last. -/
def offsets (start : Nat) : List Nat → List Nat
  | [] => [start]
  | c :: counts => start :: offsets (start + c) counts

/-- Where a sorted list would take `v` after the entries equal to it. -/
def searchsortedRight (xs : List Nat) (v : Nat) : Nat := xs.countP (· ≤ v)

theorem le_of_mem_offsets (h : o ∈ offsets start counts) : start ≤ o := by
  induction counts generalizing start with
  | nil =>
    rw [offsets, List.mem_singleton] at h
    exact Nat.le_of_eq h.symm
  | cons c counts ih =>
    rw [offsets, List.mem_cons] at h
    rcases h with rfl | h
    · exact Nat.le_refl _
    · exact Nat.le_trans (Nat.le_add_right _ _) (ih h)

theorem searchsortedRight_eq_zero (h : i < start) :
    searchsortedRight (offsets start counts) i = 0 := by
  rw [searchsortedRight, List.countP_eq_zero]
  intro o ho
  have hle := le_of_mem_offsets ho
  simp only [decide_eq_true_eq]
  omega

theorem offsets_eq_cons (start : Nat) (counts : List Nat) :
    offsets start counts = start :: (offsets start counts).tail := by
  cases counts <;> rfl

/-- A global index, looked up in the block and at the place the offsets give, finds its item. -/
theorem locate_flatten (blocks : List (List α)) (hstart : start ≤ i)
    (hi : i < start + blocks.flatten.length) :
    let cum := offsets start (blocks.map List.length)
    let b := searchsortedRight cum.tail i
    (blocks[b]?.bind fun block => block[i - cum.getD b 0]?) = blocks.flatten[i - start]? := by
  induction blocks generalizing start with
  | nil =>
    rw [List.flatten_nil, List.length_nil] at hi
    omega
  | cons block blocks ih =>
    simp only [List.map_cons, offsets, List.tail_cons, List.flatten_cons]
    by_cases hlt : i < start + block.length
    · rw [searchsortedRight_eq_zero hlt]
      simp only [List.getElem?_cons_zero, Option.bind_some, List.getD_cons_zero]
      rw [List.getElem?_append_left (by omega)]
    · rw [List.flatten_cons, List.length_append] at hi
      have hrest := ih (show start + block.length ≤ i by omega) (by omega)
      have hcount : searchsortedRight (offsets (start + block.length) (blocks.map List.length)) i =
          searchsortedRight (offsets (start + block.length)
            (blocks.map List.length)).tail i + 1 := by
        rw [offsets_eq_cons, searchsortedRight, List.countP_cons_of_pos (by simpa using hlt)]
        rfl
      rw [hcount, List.getElem?_cons_succ, List.getD_cons_succ,
        List.getElem?_append_right (by omega)]
      rw [show i - start - block.length = i - (start + block.length) by omega]
      exact hrest

section Places
variable {counts : List Nat}

/-- An index below the total is a place in one of the blocks. -/
theorem lt_sum_iff :
    i < counts.sum ↔ ∃ b n j, counts[b]? = some n ∧ j < n ∧ i = (counts.take b).sum + j := by
  induction counts generalizing i with
  | nil => simp only [List.sum_nil, Nat.not_lt_zero, List.getElem?_nil, reduceCtorEq, false_and,
      exists_false]
  | cons c counts ih =>
    constructor
    · intro hi
      rw [List.sum_cons] at hi
      by_cases hlt : i < c
      · exact ⟨0, c, i, rfl, hlt, (Nat.zero_add i).symm⟩
      · obtain ⟨b, n, j, hn, hj, heq⟩ := ih.1 (show i - c < counts.sum by omega)
        refine ⟨b + 1, n, j, hn, hj, ?_⟩
        rw [List.take_succ_cons, List.sum_cons]
        omega
    · rintro ⟨b, n, j, hn, hj, rfl⟩
      cases b with
      | zero =>
        cases hn
        rw [List.take_zero, List.sum_nil, List.sum_cons]
        omega
      | succ b =>
        have hlt := ih.2 ⟨b, n, j, hn, hj, rfl⟩
        rw [List.take_succ_cons, List.sum_cons, List.sum_cons]
        omega

/-- A block ends before a later one starts. -/
theorem sum_take_add_le (hn : counts[b]? = some n) (h : b < b') :
    (counts.take b).sum + n ≤ (counts.take b').sum := by
  induction counts generalizing b b' with
  | nil => cases hn
  | cons c counts ih =>
    cases b' with
    | zero => cases h
    | succ b' =>
      cases b with
      | zero =>
        cases hn
        rw [List.take_zero, List.sum_nil, List.take_succ_cons, List.sum_cons]
        omega
      | succ b =>
        have hle := ih hn (Nat.lt_of_succ_lt_succ h)
        rw [List.take_succ_cons, List.take_succ_cons, List.sum_cons, List.sum_cons]
        omega

end Places

end ActQuant.Lib
