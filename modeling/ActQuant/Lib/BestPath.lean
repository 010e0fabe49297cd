import Mathlib.Algebra.BigOperators.Group.List.Basic
import Mathlib.Algebra.Order.Monoid.Defs
import Mathlib.Data.List.Induction

namespace ActQuant.Lib.BestPath

/-! Best paths from the node 0 of a graph whose edges go forward: a table has the best way into
every node that was found so far, and the nodes are done in their order. -/

structure Edge (κ R : Type) where
  target : Nat
  label : κ
  weight : R

/-- A way into a node: its last edge, from where it comes, and its weight. -/
structure Cell (κ R : Type) where
  label : κ
  origin : Nat
  score : R

variable {κ R : Type} {edges : Nat → List (Edge κ R)} {os : List Nat} {start t : Nat → Cell κ R}

section Weights
variable [AddCommMonoid R]

/-- The way into a node that goes on from another one. -/
def Edge.cell (e : Edge κ R) (o : Nat) (score : R) : Cell κ R := ⟨e.label, o, score + e.weight⟩

def weight (es : List (Edge κ R)) : R := (es.map Edge.weight).sum

/-- Paths from 0 along edges of some nodes. -/
inductive Path (edges : Nat → List (Edge κ R)) (os : List Nat) : Nat → List (Edge κ R) → Prop
  | nil : Path edges os 0 []
  | snoc : Path edges os o es → o ∈ os → e ∈ edges o → Path edges os e.target (es ++ [e])

/-- The path that the table remembers. -/
inductive Traced (edges : Nat → List (Edge κ R)) (os : List Nat) (t : Nat → Cell κ R) :
    Nat → List (Edge κ R) → Prop
  | nil : Traced edges os t 0 []
  | snoc : Traced edges os t o es → o ∈ os → e ∈ edges o →
      t e.target = e.cell o (t o).score → Traced edges os t e.target (es ++ [e])

theorem weight_snoc (es : List (Edge κ R)) (e : Edge κ R) :
    weight (es ++ [e]) = weight es + e.weight := by
  rw [weight, weight, List.map_append, List.sum_append, List.map_singleton, List.sum_singleton]

theorem Traced.path (h : Traced edges os t p es) : Path edges os p es := by
  induction h with
  | nil => exact .nil
  | snoc _ ho he _ ih => exact .snoc ih ho he

/-- No path that goes forward leads to the beginning, but for the empty one. -/
theorem Traced.eq_nil (h : Traced edges os t p es)
    (hfwd : ∀ o ∈ os, ∀ e ∈ edges o, o < e.target) (hp : p = 0) : es = [] := by
  cases h with
  | nil => rfl
  | @snoc o _ e _ ho he _ =>
    have hlt := hfwd o ho e he
    exact absurd hlt (hp ▸ Nat.not_lt_zero o)

/-- The table has the weight of the path that it remembers. -/
theorem Traced.weight_eq (hzero : (t 0).score = 0) (h : Traced edges os t p es) :
    weight es = (t p).score := by
  induction h with
  | nil => exact hzero.symm
  | snoc _ _ _ hcell ih =>
    rw [weight_snoc, ih, hcell]
    rfl

end Weights

section Challenges
variable [LinearOrder R]

/-- A better way replaces the one in the table. -/
def challenge (t : Nat → Cell κ R) (p : Nat) (c : Cell κ R) : Nat → Cell κ R :=
  if (t p).score < c.score then Function.update t p c else t

theorem challenge_other (h : q ≠ p) (t : Nat → Cell κ R) (c : Cell κ R) :
    challenge t p c q = t q := by
  rw [challenge]
  split_ifs
  · exact Function.update_of_ne h ..
  · rfl

theorem challenge_cases (t : Nat → Cell κ R) (p : Nat) (c : Cell κ R) :
    challenge t p c p = c ∧ (t p).score < c.score ∨
      challenge t p c p = t p ∧ c.score ≤ (t p).score := by
  rw [challenge]
  split_ifs with h
  · exact .inl ⟨Function.update_self .., h⟩
  · exact .inr ⟨rfl, not_lt.1 h⟩

theorem score_le_challenge (t : Nat → Cell κ R) (p : Nat) (c : Cell κ R) (q : Nat) :
    (t q).score ≤ (challenge t p c q).score := by
  by_cases hq : q = p
  · subst hq
    rcases challenge_cases t q c with ⟨h, hlt⟩ | ⟨h, _⟩
    · rw [h]
      exact hlt.le
    · rw [h]
  · rw [challenge_other hq]

theorem le_score_challenge (t : Nat → Cell κ R) (p : Nat) (c : Cell κ R) :
    c.score ≤ (challenge t p c p).score := by
  rcases challenge_cases t p c with ⟨h, _⟩ | ⟨h, hle⟩
  · rw [h]
  · rw [h]
    exact hle

end Challenges

section Tables
variable [AddCommMonoid R] [LinearOrder R]

def relax (o : Nat) (t : Nat → Cell κ R) (e : Edge κ R) : Nat → Cell κ R :=
  challenge t e.target (e.cell o (t o).score)

def relaxAll (edges : Nat → List (Edge κ R)) (t : Nat → Cell κ R) (o : Nat) : Nat → Cell κ R :=
  (edges o).foldl (relax o) t

/-- The nodes are done: no edge of theirs improves the table, and its ways are along them. -/
structure Settled (edges : Nat → List (Edge κ R)) (os : List Nat)
    (start t : Nat → Cell κ R) : Prop where
  champion : ∀ o ∈ os, ∀ e ∈ edges o, (t o).score + e.weight ≤ (t e.target).score
  origin : ∀ p, t p = start p ∨ ∃ o ∈ os, ∃ e ∈ edges o, e.target = p ∧
    t p = e.cell o (t o).score

/-- What the edges of a node, all forward, make of a table. -/
structure Relaxed (o : Nat) (es : List (Edge κ R)) (t t' : Nat → Cell κ R) : Prop where
  before : ∀ p ≤ o, t' p = t p
  mono : ∀ p, (t p).score ≤ (t' p).score
  champion : ∀ e ∈ es, (t o).score + e.weight ≤ (t' e.target).score
  origin : ∀ p, t' p = t p ∨ ∃ e ∈ es, e.target = p ∧ t' p = e.cell o (t o).score

theorem relaxed_foldl {es : List (Edge κ R)} (h : ∀ e ∈ es, o < e.target)
    (t : Nat → Cell κ R) : Relaxed o es t (es.foldl (relax o) t) := by
  induction es generalizing t with
  | nil => exact ⟨fun _ _ => rfl, fun _ => le_rfl, fun _ he => absurd he List.not_mem_nil,
      fun _ => .inl rfl⟩
  | cons e es ih =>
    rw [List.foldl_cons]
    have hrest := ih (fun e' he' => h e' (List.mem_cons_of_mem _ he')) (relax o t e)
    have hto : o < e.target := h e List.mem_cons_self
    have hbefore : ∀ p ≤ o, relax o t e p = t p :=
      fun p hp => challenge_other (by omega) t _
    constructor
    · exact fun p hp => (hrest.before p hp).trans (hbefore p hp)
    · exact fun p => (score_le_challenge t _ _ p).trans (hrest.mono p)
    · intro e' he'
      rcases List.mem_cons.1 he' with rfl | he'
      · exact (le_score_challenge t e'.target (e'.cell o (t o).score)).trans (hrest.mono _)
      · have hchamp := hrest.champion e' he'
        rwa [hbefore o le_rfl] at hchamp
    · intro p
      rcases hrest.origin p with hsame | ⟨e', he', htarget, hcell⟩
      · rw [hsame]
        by_cases hp : p = e.target
        · subst hp
          rcases challenge_cases t e.target (e.cell o (t o).score) with ⟨hc, _⟩ | ⟨hc, _⟩
          · exact .inr ⟨e, List.mem_cons_self, rfl, hc⟩
          · exact .inl hc
        · exact .inl (challenge_other hp t _)
      · rw [hbefore o le_rfl] at hcell
        exact .inr ⟨e', List.mem_cons_of_mem _ he', htarget, hcell⟩

/-- Where the nodes are done in their order, what is done stays right. -/
theorem settled (hfwd : ∀ o ∈ os, ∀ e ∈ edges o, o < e.target) (hsorted : os.Pairwise (· < ·))
    (start : Nat → Cell κ R) : Settled edges os start (os.foldl (relaxAll edges) start) := by
  induction os using List.reverseRecOn with
  | nil => exact ⟨fun _ ho => absurd ho List.not_mem_nil, fun _ => .inl rfl⟩
  | append_singleton os o ih =>
    obtain ⟨hos, _, hlt⟩ := List.pairwise_append.1 hsorted
    have hdone := ih (fun o' ho' => hfwd o' (List.mem_append_left _ ho')) hos
    have hlast : o ∈ os ++ [o] := List.mem_append_right _ List.mem_cons_self
    have hnext := relaxed_foldl (hfwd o hlast) (os.foldl (relaxAll edges) start)
    rw [List.foldl_append, List.foldl_cons, List.foldl_nil, relaxAll]
    generalize os.foldl (relaxAll edges) start = t at hdone hnext
    generalize (edges o).foldl (relax o) t = t' at hnext
    have hold : ∀ o' ∈ os, t' o' = t o' :=
      fun o' ho' => hnext.before o' (hlt o' ho' o List.mem_cons_self).le
    constructor
    · intro o' ho' e he
      rcases List.mem_append.1 ho' with ho' | ho'
      · rw [hold o' ho']
        exact (hdone.champion o' ho' e he).trans (hnext.mono _)
      · obtain rfl := List.mem_singleton.1 ho'
        rw [hnext.before o' le_rfl]
        exact hnext.champion e he
    · intro p
      rcases hnext.origin p with hsame | ⟨e, he, htarget, hcell⟩
      · rw [hsame]
        apply (hdone.origin p).imp_right
        rintro ⟨o', ho', e, he, htarget, hcell⟩
        rw [← hold o' ho'] at hcell
        exact ⟨o', List.mem_append_left _ ho', e, he, htarget, hcell⟩
      · rw [← hnext.before o le_rfl] at hcell
        exact .inr ⟨o, hlast, e, he, htarget, hcell⟩

/-- No path is better than the table. -/
theorem Settled.le [IsOrderedAddMonoid R] (h : Settled edges os start t) (hzero : 0 ≤ (t 0).score)
    (hp : Path edges os p es) : weight es ≤ (t p).score := by
  induction hp with
  | nil => exact hzero
  | @snoc o es e _ ho he ih =>
    rw [weight_snoc]
    exact (add_le_add_left ih _).trans (h.champion o ho e he)

/-- A node with a path that is better than the start has a way in the table. -/
theorem Settled.reached [IsOrderedAddMonoid R] (h : Settled edges os start t)
    (hzero : 0 ≤ (t 0).score) (hp : Path edges os p es) (hlt : (start p).score < weight es) :
    t p ≠ start p := by
  intro he
  have hle := h.le hzero hp
  rw [he] at hle
  exact absurd hlt (not_lt.2 hle)

/-- The ways in the table lead back to the node 0. -/
theorem Settled.traced (h : Settled edges os start t) (hfwd : ∀ o ∈ os, ∀ e ∈ edges o, o < e.target)
    (hreached : ∀ o ∈ os, o = 0 ∨ t o ≠ start o) (p : Nat) (hp : p = 0 ∨ t p ≠ start p) :
    ∃ es, Traced edges os t p es := by
  induction p using Nat.strong_induction_on with
  | _ p ih =>
    rcases hp with rfl | hp
    · exact ⟨[], .nil⟩
    · obtain ⟨o, ho, e, he, rfl, hcell⟩ := (h.origin p).resolve_left hp
      obtain ⟨es, hes⟩ := ih o (hfwd o ho e he) (hreached o ho)
      exact ⟨es ++ [e], .snoc hes ho he hcell⟩

end Tables

end ActQuant.Lib.BestPath
