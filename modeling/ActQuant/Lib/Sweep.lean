import Mathlib.Logic.Function.Basic

namespace ActQuant.Lib

/-! One pass of a loop over places of a store, where the turn at a place touches that place only. -/

section Sweep

variable {σ ι π α : Type} [DecidableEq π] {step : σ → ι → Option σ} {get : σ → π → α} {I : σ → Prop}
  {xs : List ι}

theorem foldlM_cons_eq_some {s t : σ} :
    (x :: xs).foldlM step s = some t ↔ ∃ u, step s x = some u ∧ xs.foldlM step u = some t := by
  rw [List.foldlM_cons]
  exact Option.bind_eq_some_iff

/-- What every turn keeps, the pass keeps. -/
theorem sweep_invariant (hstep : ∀ {s x t}, x ∈ xs → I s → step s x = some t → I t) (h₀ : I s)
    (h : xs.foldlM step s = some t) : I t := by
  induction xs generalizing s with
  | nil =>
    cases h
    exact h₀
  | cons x xs ih =>
    obtain ⟨u, hu, hrest⟩ := foldlM_cons_eq_some.1 h
    exact ih (fun hx => hstep (List.mem_cons_of_mem _ hx)) (hstep List.mem_cons_self h₀ hu) hrest

/-- What every turn shows of its index holds of all of them. -/
theorem sweep_forall {Q : ι → Prop}
    (hstep : ∀ {s x t}, x ∈ xs → I s → step s x = some t → I t ∧ Q x) (h₀ : I s)
    (h : xs.foldlM step s = some t) (hx : x ∈ xs) : Q x := by
  induction xs generalizing s with
  | nil => cases hx
  | cons y xs ih =>
    obtain ⟨u, hu, hrest⟩ := foldlM_cons_eq_some.1 h
    obtain ⟨hI, hQ⟩ := hstep List.mem_cons_self h₀ hu
    rcases List.mem_cons.1 hx with rfl | hx
    · exact hQ
    · exact ih (fun hx => hstep (List.mem_cons_of_mem _ hx)) hI hrest hx

/-- What the turns keep of the places behind them holds of all of them at the end. -/
theorem sweep_along {J : List ι → σ → Prop}
    (hstep : ∀ {done x left s t}, xs = done ++ x :: left → J done s → step s x = some t →
      J (done ++ [x]) t)
    (h₀ : J [] s) (h : xs.foldlM step s = some t) : J xs t := by
  suffices hgen : ∀ done ys s, xs = done ++ ys → J done s → ys.foldlM step s = some t → J xs t from
    hgen [] xs s rfl h₀ h
  intro done ys
  induction ys generalizing done with
  | nil =>
    intro s hxs hJ h
    cases h
    rwa [hxs, List.append_nil]
  | cons y ys ih =>
    intro s hxs hJ h
    obtain ⟨u, hu, hrest⟩ := foldlM_cons_eq_some.1 h
    apply ih (done ++ [y]) u _ (hstep hxs hJ hu) hrest
    rw [hxs, List.append_assoc, List.singleton_append]

/-- A pass whose turns go on from what they keep is carried out to its end. -/
theorem sweep_total (hstep : ∀ {s x}, x ∈ xs → I s → ∃ t, step s x = some t ∧ I t) (h₀ : I s) :
    ∃ t, xs.foldlM step s = some t ∧ I t := by
  induction xs generalizing s with
  | nil => exact ⟨s, rfl, h₀⟩
  | cons x xs ih =>
    obtain ⟨u, hu, hI⟩ := hstep List.mem_cons_self h₀
    obtain ⟨t, ht, hIt⟩ := ih (fun hx => hstep (List.mem_cons_of_mem _ hx)) hI
    exact ⟨t, foldlM_cons_eq_some.2 ⟨u, hu, ht⟩, hIt⟩

/-- A pass over the first numbers, with what holds after so many turns. -/
theorem sweep_range {step : σ → Nat → Option σ} {I : Nat → σ → Prop} (h₀ : I 0 s)
    (hstep : ∀ {k s}, k < n → I k s → ∃ t, step s k = some t ∧ I (k + 1) t) :
    ∃ t, (List.range n).foldlM step s = some t ∧ I n t := by
  induction n with
  | zero => exact ⟨s, rfl, h₀⟩
  | succ n ih =>
    obtain ⟨u, hu, hI⟩ := ih fun hk => hstep (Nat.lt_succ_of_lt hk)
    obtain ⟨t, ht, hIt⟩ := hstep (Nat.lt_succ_self n) hI
    refine ⟨t, ?_, hIt⟩
    rw [List.range_succ, List.foldlM_append, hu]
    exact foldlM_cons_eq_some.2 ⟨t, ht, rfl⟩

variable (get) (place : ι → π) (g : ι → α → α)

/-- A place without a turn is left alone. -/
theorem sweep_get_other
    (hstep : ∀ {s x t}, x ∈ xs → step s x = some t →
      get t = Function.update (get s) (place x) (g x (get s (place x))))
    (hj : ∀ x ∈ xs, place x ≠ j) (h : xs.foldlM step s = some t) : get t j = get s j := by
  induction xs generalizing s with
  | nil =>
    cases h
    rfl
  | cons x xs ih =>
    obtain ⟨u, hu, hrest⟩ := foldlM_cons_eq_some.1 h
    rw [ih (fun hx => hstep (List.mem_cons_of_mem _ hx))
      (fun y hy => hj y (List.mem_cons_of_mem _ hy)) hrest, hstep List.mem_cons_self hu]
    exact Function.update_of_ne (hj x List.mem_cons_self).symm _ _

/-- A place is changed by its own turn, from what it held before the pass. -/
theorem sweep_get
    (hstep : ∀ {s x t}, x ∈ xs → step s x = some t →
      get t = Function.update (get s) (place x) (g x (get s (place x))))
    (hnd : (xs.map place).Nodup) (h : xs.foldlM step s = some t) (hx : x ∈ xs) :
    get t (place x) = g x (get s (place x)) := by
  induction xs generalizing s with
  | nil => cases hx
  | cons y xs ih =>
    obtain ⟨u, hu, hrest⟩ := foldlM_cons_eq_some.1 h
    rw [List.map_cons, List.nodup_cons] at hnd
    have hget := hstep List.mem_cons_self hu
    have hstep' : ∀ {s x t}, x ∈ xs → step s x = some t →
        get t = Function.update (get s) (place x) (g x (get s (place x))) :=
      fun hx => hstep (List.mem_cons_of_mem _ hx)
    rcases List.mem_cons.1 hx with rfl | hx
    · have hne : ∀ z ∈ xs, place z ≠ place x :=
        fun z hz he => hnd.1 (he.symm ▸ List.mem_map_of_mem hz)
      rw [sweep_get_other get place g hstep' hne hrest, hget]
      exact Function.update_self _ _ _
    · have hne : place x ≠ place y := fun he => hnd.1 (he.symm ▸ List.mem_map_of_mem hx)
      rw [ih hstep' hnd.2 hrest hx, hget, Function.update_of_ne hne]

/-- A pass whose turns are ready at the start is carried out to its end. -/
theorem sweep_succeeds (ok : ι → α → Prop)
    (hget : ∀ {s x t}, x ∈ xs → step s x = some t →
      get t = Function.update (get s) (place x) (g x (get s (place x))))
    (hstep : ∀ {s x}, x ∈ xs → I s → ok x (get s (place x)) → ∃ t, step s x = some t ∧ I t)
    (hnd : (xs.map place).Nodup) (h₀ : I s) (hok : ∀ x ∈ xs, ok x (get s (place x))) :
    ∃ t, xs.foldlM step s = some t ∧ I t := by
  induction xs generalizing s with
  | nil => exact ⟨s, rfl, h₀⟩
  | cons x xs ih =>
    rw [List.map_cons, List.nodup_cons] at hnd
    obtain ⟨u, hu, hI⟩ := hstep List.mem_cons_self h₀ (hok x List.mem_cons_self)
    have hrest : ∀ y ∈ xs, ok y (get u (place y)) := by
      intro y hy
      have hne : place y ≠ place x := fun he => hnd.1 (he.symm ▸ List.mem_map_of_mem hy)
      rw [hget List.mem_cons_self hu, Function.update_of_ne hne]
      exact hok y (List.mem_cons_of_mem _ hy)
    obtain ⟨t, ht, hIt⟩ := ih (fun hx => hget (List.mem_cons_of_mem _ hx))
      (fun hx => hstep (List.mem_cons_of_mem _ hx)) hnd.2 hI hrest
    exact ⟨t, foldlM_cons_eq_some.2 ⟨u, hu, ht⟩, hIt⟩

end Sweep
end ActQuant.Lib
