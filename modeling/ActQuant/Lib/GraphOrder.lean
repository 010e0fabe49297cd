import Mathlib.Data.List.Basic

namespace ActQuant.Lib

/-- A graph under construction: the nodes met so far, and those of them that are in place, in the
order in which they are computed. -/
structure Cgraph (ν : Type) where
  visited : List ν
  nodes : List ν

namespace Cgraph

def empty : Cgraph ν := ⟨[], []⟩

/-- Every node that was met is in place. -/
def Complete (g : Cgraph ν) : Prop := ∀ n ∈ g.visited, n ∈ g.nodes

theorem complete_empty : (empty : Cgraph ν).Complete := fun _ h => absurd h List.not_mem_nil

end Cgraph

section Order
variable {ν : Type} {needs needs' : ν → List ν}

/-- What each of the nodes needs is done by the time it comes. -/
def Ordered (needs : ν → List ν) : List ν → List ν → Prop
  | _, [] => True
  | done, n :: ns => (∀ m ∈ needs n, m ∈ done) ∧ Ordered needs (done ++ [n]) ns

theorem ordered_append {done ns ms : List ν} :
    Ordered needs done (ns ++ ms) ↔ Ordered needs done ns ∧ Ordered needs (done ++ ns) ms := by
  induction ns generalizing done with
  | nil => simp only [List.nil_append, List.append_nil, Ordered, true_and]
  | cons n ns ih => simp only [List.cons_append, Ordered, ih, and_assoc, List.append_assoc,
      List.nil_append]

/-- Nodes that need only what was done before them all stand in any order. -/
theorem ordered_of_done {done ns : List ν} (h : ∀ n ∈ ns, ∀ m ∈ needs n, m ∈ done) :
    Ordered needs done ns := by
  induction ns generalizing done with
  | nil => trivial
  | cons n ns ih =>
    refine ⟨h n (.head _), ih ?_⟩
    intro n' hn' m hm
    exact List.mem_append_left _ (h n' (.tail _ hn') m hm)

theorem Ordered.mem_of_needs {done ns : List ν} (h : Ordered needs done ns) (hn : n ∈ ns)
    (hm : m ∈ needs n) : m ∈ done ++ ns := by
  induction ns generalizing done with
  | nil => cases hn
  | cons n' ns ih =>
    rcases List.mem_cons.1 hn with rfl | hn
    · exact List.mem_append_left _ (h.1 m hm)
    · have hin := ih h.2 hn
      rwa [List.append_assoc, List.singleton_append] at hin

theorem Ordered.and {done ns : List ν} (h : Ordered needs done ns)
    (h' : Ordered needs' done ns) : Ordered (fun n => needs n ++ needs' n) done ns := by
  induction ns generalizing done with
  | nil => trivial
  | cons n ns ih =>
    refine ⟨?_, ih h.2 h'.2⟩
    intro m hm
    rcases List.mem_append.1 hm with hm | hm
    · exact h.1 m hm
    · exact h'.1 m hm

/-- Computed in order, the nodes take an invariant of what is done from the start to the end. -/
theorem foldlM_of_ordered {σ : Type*} {step : σ → ν → Option σ} {I : List ν → σ → Prop}
    {done ns : List ν} {s : σ}
    (hstep : ∀ {done n s}, n ∈ ns → I done s → (∀ m ∈ needs n, m ∈ done) →
      ∃ s', step s n = some s' ∧ I (done ++ [n]) s')
    (h : Ordered needs done ns) (hI : I done s) :
    ∃ s', ns.foldlM step s = some s' ∧ I (done ++ ns) s' := by
  induction ns generalizing done s with
  | nil => exact ⟨s, rfl, by rwa [List.append_nil]⟩
  | cons n ns ih =>
    obtain ⟨s', hs', hI'⟩ := hstep (.head _) hI h.1
    obtain ⟨s'', hs'', hI''⟩ := ih (fun hn => hstep (.tail _ hn)) h.2 hI'
    refine ⟨s'', ?_, ?_⟩
    · rw [List.foldlM_cons, hs']
      exact hs''
    · rwa [List.append_assoc, List.singleton_append] at hI''

end Order

section Visit
variable {ν : Type} [DecidableEq ν] (src : ν → List ν)

/-- A node is put after its operands; one that was met before is left alone. -/
def visitParents : Nat → Cgraph ν → ν → Cgraph ν
  | 0, g, _ => g
  | fuel + 1, g, n =>
    if n ∈ g.visited then g
    else
      let g' := (src n).foldl (visitParents fuel) { g with visited := n :: g.visited }
      { g' with nodes := g'.nodes ++ [n] }

/-- The nodes that came to a graph, each after its operands. -/
structure Grown (g g' : Cgraph ν) (new : List ν) : Prop where
  nodes : g'.nodes = g.nodes ++ new
  visited : ∀ m, m ∈ g'.visited ↔ m ∈ g.visited ∨ m ∈ new
  ordered : Ordered src g.nodes new

variable {src} {g g' g'' : Cgraph ν}

omit [DecidableEq ν] in
theorem Grown.refl (g : Cgraph ν) : Grown src g g [] :=
  ⟨(List.append_nil _).symm, fun _ => by simp only [List.not_mem_nil, or_false], trivial⟩

omit [DecidableEq ν] in
theorem Grown.trans (h : Grown src g g' new) (h' : Grown src g' g'' new') :
    Grown src g g'' (new ++ new') where
  nodes := by rw [h'.nodes, h.nodes, List.append_assoc]
  visited m := by rw [h'.visited, h.visited, List.mem_append, or_assoc]
  ordered := ordered_append.2 ⟨h.ordered, h.nodes ▸ h'.ordered⟩

/-- The nodes that are met but not in place are of a rank or above. -/
def OpenAbove (rank : ν → Nat) (r : Nat) (g : Cgraph ν) : Prop :=
  ∀ m ∈ g.visited, m ∈ g.nodes ∨ r ≤ rank m

omit [DecidableEq ν] in
theorem OpenAbove.grown {rank : ν → Nat} (h : OpenAbove rank r g) (hg : Grown src g g' new) :
    OpenAbove rank r g' := by
  intro m hm
  rw [hg.nodes, List.mem_append]
  rcases (hg.visited m).1 hm with hm | hm
  · exact (h m hm).imp_left .inl
  · exact .inl (.inr hm)

/-- The operands of a property's nodes have it too. -/
def ClosedUnder (src : ν → List ν) (P : ν → Prop) : Prop := ∀ n, P n → ∀ m ∈ src n, P m

section Ranked
variable {rank : ν → Nat} {P : ν → Prop}

theorem foldl_visitParents_grown {fuel r : Nat}
    (hvisit : ∀ {g n}, rank n < r → OpenAbove rank (rank n + 1) g → P n →
      ∃ new, Grown src g (visitParents src fuel g n) new ∧
        n ∈ (visitParents src fuel g n).nodes ∧ ∀ m ∈ new, P m)
    {ns : List ν} (hns : ∀ n ∈ ns, rank n < r ∧ P n) {g : Cgraph ν} (hg : OpenAbove rank r g) :
    ∃ new, Grown src g (ns.foldl (visitParents src fuel) g) new ∧
      (∀ n ∈ ns, n ∈ (ns.foldl (visitParents src fuel) g).nodes) ∧ ∀ m ∈ new, P m := by
  induction ns generalizing g with
  | nil => exact ⟨[], .refl g, fun _ h => absurd h List.not_mem_nil,
      fun _ h => absurd h List.not_mem_nil⟩
  | cons n ns ih =>
    obtain ⟨hr, hPn⟩ := hns n (.head _)
    have hopen : OpenAbove rank (rank n + 1) g := fun m hm => (hg m hm).imp_right (Nat.le_trans hr)
    obtain ⟨new, hgrown, hn, hnew⟩ := hvisit hr hopen hPn
    obtain ⟨new', hgrown', hns', hnew'⟩ :=
      ih (fun n hn => hns n (.tail _ hn)) (hg.grown hgrown)
    refine ⟨new ++ new', hgrown.trans hgrown', ?_, ?_⟩
    · intro n' hn'
      rcases List.mem_cons.1 hn' with rfl | hn'
      · rw [List.foldl_cons, hgrown'.nodes]
        exact List.mem_append_left _ hn
      · exact hns' n' hn'
    · intro m hm
      exact (List.mem_append.1 hm).elim (hnew m) (hnew' m)

/-- With as much fuel as the rank asks for, a node comes into place after its operands, and only
what it rests on comes with it. -/
theorem visitParents_grown (hrank : ∀ n, ∀ m ∈ src n, rank m < rank n) (hP : ClosedUnder src P)
    {fuel : Nat} {g : Cgraph ν} {n : ν} (hfuel : rank n < fuel)
    (hg : OpenAbove rank (rank n + 1) g) (hn : P n) :
    ∃ new, Grown src g (visitParents src fuel g n) new ∧
      n ∈ (visitParents src fuel g n).nodes ∧ ∀ m ∈ new, P m := by
  induction fuel generalizing g n with
  | zero => exact absurd hfuel (Nat.not_lt_zero _)
  | succ fuel ih =>
    rw [visitParents]
    by_cases hmet : n ∈ g.visited
    · rw [if_pos hmet]
      exact ⟨[], .refl g, (hg n hmet).resolve_right (Nat.not_succ_le_self _),
        fun _ h => absurd h List.not_mem_nil⟩
    rw [if_neg hmet]
    have hopen : OpenAbove rank (rank n) { g with visited := n :: g.visited } := by
      intro m hm
      rcases List.mem_cons.1 hm with rfl | hm
      · exact .inr (Nat.le_refl _)
      · exact (hg m hm).imp_right (Nat.le_of_succ_le)
    obtain ⟨new, hgrown, hsrc, hnew⟩ := foldl_visitParents_grown
      (fun hr hopen hPm => ih (Nat.lt_of_lt_of_le hr (Nat.le_of_lt_succ hfuel)) hopen hPm)
      (fun m hm => ⟨hrank n m hm, hP n hn m hm⟩) hopen
    refine ⟨new ++ [n], ⟨?_, ?_, ?_⟩, List.mem_append_right _ (.head _), ?_⟩
    · simp only [hgrown.nodes, List.append_assoc]
    · intro m
      rw [hgrown.visited, List.mem_cons, List.mem_append, List.mem_singleton, or_comm (a := m = n),
        or_assoc, or_comm (a := m = n)]
    · refine ordered_append.2 ⟨hgrown.ordered, ?_, trivial⟩
      intro m hm
      rw [← hgrown.nodes]
      exact hsrc m hm
    · intro m hm
      rcases List.mem_append.1 hm with hm | hm
      · exact hnew m hm
      · exact List.mem_singleton.1 hm ▸ hn

variable (src rank) in
/-- The calls on a node's operands are no deeper than its rank. -/
def buildForwardExpand (g : Cgraph ν) (n : ν) : Cgraph ν := visitParents src (rank n + 1) g n

theorem buildForwardExpand_grown (hrank : ∀ n, ∀ m ∈ src n, rank m < rank n)
    (hP : ClosedUnder src P) (hg : g.Complete) (hn : P n) :
    ∃ new, Grown src g (buildForwardExpand src rank g n) new ∧
      n ∈ (buildForwardExpand src rank g n).nodes ∧
      (buildForwardExpand src rank g n).Complete ∧ ∀ m ∈ new, P m := by
  obtain ⟨new, hgrown, hmem, hnew⟩ := visitParents_grown hrank hP (Nat.lt_succ_self _)
    (fun m hm => .inl (hg m hm)) hn
  refine ⟨new, hgrown, hmem, ?_, hnew⟩
  intro m hm
  rw [buildForwardExpand, hgrown.nodes, List.mem_append]
  exact ((hgrown.visited m).1 hm).imp_left (hg m)

end Ranked
end Visit
end ActQuant.Lib
