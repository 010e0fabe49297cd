import Mathlib.Algebra.BigOperators.Group.List.Basic

namespace ActQuant.Lib
open Relation

/-- One of several workers takes a step on the state they share. -/
inductive Interleave (step : σ → ω → Option (σ × ω)) : σ × List ω → σ × List ω → Prop where
  | turn (us vs : List ω) (h : step s w = some (t, w')) :
      Interleave step (s, us ++ w :: vs) (t, us ++ w' :: vs)

/-- A state in which no worker can take a step. -/
def Stopped (step : σ → ω → Option (σ × ω)) (p : σ × List ω) : Prop :=
  ∀ w ∈ p.2, step p.1 w = none

variable {step : σ → ω → Option (σ × ω)} {I : σ → List ω → Prop}

theorem stopped_iff : Stopped step p ↔ ∀ q, ¬ Interleave step p q := by
  constructor
  · rintro h q ⟨us, vs, hs⟩
    rw [h _ (by simp)] at hs
    cases hs
  · intro h w hw
    obtain ⟨us, vs, hws⟩ := List.append_of_mem hw
    cases hs : step p.1 w with
    | none => rfl
    | some r =>
      have hp : p = (p.1, us ++ w :: vs) := by rw [← hws]
      rw [hp] at h
      exact absurd (.turn us vs hs) (h (r.1, us ++ r.2 :: vs))

/-- After a turn the workers are the one that took it and, for the rest, the old ones. -/
theorem mem_turn {us vs : List ω} (w : ω) (h : x ∈ us ++ w' :: vs) :
    x = w' ∨ x ∈ us ++ w :: vs := by
  rw [List.mem_append, List.mem_cons] at h ⊢
  tauto

theorem mem_turn_of_ne {us vs : List ω} (w' : ω) (h : x ∈ us ++ w :: vs) (hne : x ≠ w) :
    x ∈ us ++ w' :: vs := by
  rw [List.mem_append, List.mem_cons] at h ⊢
  tauto

theorem interleave_invariant
    (hstep : ∀ {s t w w' us vs}, I s (us ++ w :: vs) → step s w = some (t, w') →
      I t (us ++ w' :: vs))
    (h₀ : I p.1 p.2) (h : ReflTransGen (Interleave step) p q) : I q.1 q.2 := by
  induction h with
  | refl => exact h₀
  | tail _ hs ih =>
    cases hs with
    | turn us vs hs => exact hstep ih hs

/-- Steps that decrease a measure of the state and the worker together cannot go on forever. -/
theorem interleave_wf (μ : σ → Nat) (ν : ω → Nat)
    (hμ : ∀ {s t w w'}, step s w = some (t, w') → μ t + ν w' < μ s + ν w) :
    WellFounded fun q p => Interleave step p q := by
  refine Subrelation.wf ?_ (measure fun p : σ × List ω => μ p.1 + (p.2.map ν).sum).wf
  rintro q p ⟨us, vs, hs⟩
  have hlt := hμ hs
  change μ _ + (List.map ν (us ++ _ :: vs)).sum < μ _ + (List.map ν (us ++ _ :: vs)).sum
  simp only [List.map_append, List.map_cons, List.sum_append, List.sum_cons]
  omega

/-- Where every schedule ends, every state reaches one in which all workers have stopped. -/
theorem exists_stopped (hwf : WellFounded fun q p => Interleave step p q) (p : σ × List ω) :
    ∃ q, ReflTransGen (Interleave step) p q ∧ Stopped step q := by
  induction p using hwf.induction with
  | h p ih =>
    by_cases hp : Stopped step p
    · exact ⟨p, .refl, hp⟩
    · rw [stopped_iff] at hp
      push Not at hp
      obtain ⟨q, hq⟩ := hp
      obtain ⟨r, hr, hstop⟩ := ih q hq
      exact ⟨r, .head hq hr, hstop⟩

end ActQuant.Lib
