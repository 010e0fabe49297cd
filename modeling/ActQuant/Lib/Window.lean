import Mathlib.Algebra.Order.Group.Multiset

namespace ActQuant.Lib.Window

/-! A log of entries with their positions, of which a memory may forget what no later position
looks at. -/

variable {ι β : Type} [LinearOrder ι] {masked : ι → ι → Prop}
  {base base' log log' kept kept' more : Multiset (ι × β)}

/-- All entries stand before the position. -/
def Before (log : Multiset (ι × β)) (q : ι) : Prop := ∀ e ∈ log, e.1 < q

/-- No position behind the base looks at the entry. -/
def Past (masked : ι → ι → Prop) (base : Multiset (ι × β)) (e : ι × β) : Prop :=
  ∀ q, Before base q → masked e.1 q

/-- All of the log is kept but entries that are past the base. -/
def Keeps (masked : ι → ι → Prop) (base log kept : Multiset (ι × β)) : Prop :=
  ∃ lost, log = kept + lost ∧ ∀ e ∈ lost, Past masked base e

/-- What is masked is masked with all before it, and stays so. -/
def Fades (masked : ι → ι → Prop) : Prop :=
  ∀ ⦃a a' q q'⦄, masked a q → a < q → a' ≤ a → q ≤ q' → masked a' q'

/-- The rest of a log ends where the log ends, or nothing is left. -/
def EndsWith (log log' : Multiset (ι × β)) : Prop :=
  log' = 0 ∨ ∀ q, Before log' q → Before log q

theorem before_add : Before (log + more) q ↔ Before log q ∧ Before more q := by
  simp only [Before, Multiset.mem_add, or_imp, forall_and]

/-- A log has a position behind it. -/
theorem exists_before [NoMaxOrder ι] [Nonempty ι] (log : Multiset (ι × β)) :
    ∃ q, Before log q := by
  induction log using Multiset.induction with
  | empty => exact ⟨Classical.arbitrary ι, fun _ he => absurd he (Multiset.notMem_zero _)⟩
  | cons e log ih =>
    obtain ⟨q, hq⟩ := ih
    obtain ⟨r, hr⟩ := exists_gt (max e.1 q)
    refine ⟨r, fun x hx => ?_⟩
    rcases Multiset.mem_cons.1 hx with rfl | hx
    · exact (le_max_left _ _).trans_lt hr
    · exact (hq x hx).trans ((le_max_right _ _).trans_lt hr)

theorem Fades.past (hf : Fades masked) (hmask : masked a q) (haq : a < q) (hle : e.1 ≤ a)
    (hbase : ∀ r, Before base r → q ≤ r) : Past masked base e :=
  fun r hr => hf hmask haq hle (hbase r hr)

namespace Keeps

theorem refl (masked : ι → ι → Prop) (base log : Multiset (ι × β)) : Keeps masked base log log :=
  ⟨0, (add_zero log).symm, fun _ he => absurd he (Multiset.notMem_zero _)⟩

theorem kept_le (h : Keeps masked base log kept) : kept ≤ log := by
  obtain ⟨lost, rfl, _⟩ := h
  exact Multiset.le_add_right kept lost

theorem drop (h : Keeps masked base log (kept + more)) (hmore : ∀ e ∈ more, Past masked base e) :
    Keeps masked base log kept := by
  obtain ⟨lost, rfl, hlost⟩ := h
  refine ⟨more + lost, add_assoc kept more lost, fun e he => ?_⟩
  rcases Multiset.mem_add.1 he with he | he
  · exact hmore e he
  · exact hlost e he

theorem add (h : Keeps masked base log kept) (h' : Keeps masked base log' kept') :
    Keeps masked base (log + log') (kept + kept') := by
  obtain ⟨lost, rfl, hlost⟩ := h
  obtain ⟨lost', rfl, hlost'⟩ := h'
  refine ⟨lost + lost', add_add_add_comm _ _ _ _, fun e he => ?_⟩
  rcases Multiset.mem_add.1 he with he | he
  · exact hlost e he
  · exact hlost' e he

theorem append (h : Keeps masked base log kept) (new : Multiset (ι × β)) :
    Keeps masked base (log + new) (kept + new) :=
  h.add (.refl masked base new)

theorem filter (h : Keeps masked base log kept) (p : ι × β → Prop) [DecidablePred p] :
    Keeps masked base (log.filter p) (kept.filter p) := by
  obtain ⟨lost, rfl, hlost⟩ := h
  exact ⟨lost.filter p, Multiset.filter_add p kept lost,
    fun e he => hlost e (Multiset.mem_of_mem_filter he)⟩

theorem rebase (h : Keeps masked base log kept) (hbase : ∀ q, Before base' q → Before base q) :
    Keeps masked base' log kept := by
  obtain ⟨lost, hlog, hlost⟩ := h
  exact ⟨lost, hlog, fun e he q hq => hlost e he q (hbase q hq)⟩

theorem nothing (h : Keeps masked base 0 kept) : kept = 0 := Multiset.le_zero.1 h.kept_le

/-- What is past a log is past what is left of it, where that ends where the log ends. -/
theorem settle (h : Keeps masked log log' kept) (hends : EndsWith log log') :
    Keeps masked log' log' kept := by
  rcases hends with rfl | hends
  · rw [h.nothing]
    exact .refl masked 0 0
  · exact h.rebase hends

/-- Where nothing is masked, all is kept. -/
theorem all [NoMaxOrder ι] [Nonempty ι] (h : Keeps masked base log kept)
    (hmask : ∀ a q, ¬ masked a q) : kept = log := by
  obtain ⟨lost, rfl, hlost⟩ := h
  obtain ⟨q, hq⟩ := exists_before base
  have hnone : lost = 0 :=
    Multiset.eq_zero_of_forall_notMem fun e he => hmask _ _ (hlost e he q hq)
  rw [hnone, add_zero]

/-- A position behind the base sees in what is kept all that it would see in the log. -/
theorem seen (h : Keeps masked base log kept) (hq : Before base q) (p : ι × β → Prop)
    [DecidablePred p] (hp : ∀ e, p e → ¬ masked e.1 q) : kept.filter p = log.filter p := by
  obtain ⟨lost, rfl, hlost⟩ := h
  have hnone : lost.filter p = 0 :=
    Multiset.filter_eq_nil.2 fun e he hpe => hp e hpe (hlost e he q hq)
  rw [Multiset.filter_add, hnone, add_zero]

end Keeps
end ActQuant.Lib.Window
