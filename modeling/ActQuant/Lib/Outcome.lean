import Mathlib.Tactic.TypeStar

namespace ActQuant.Lib

/-- Whatever the computation returns has the property; it may also fail. -/
def Returns {ε α : Type*} (P : α → Prop) (x : Except ε α) : Prop := ∀ a, x = .ok a → P a

section Outcome
variable {ε α β : Type*} {P : α → Prop} {Q : β → Prop} {x : Except ε α}

theorem returns_ok {a : α} (h : P a) : Returns P (.ok a : Except ε α) := by
  intro b hb
  cases hb
  exact h

theorem Returns.ite {c : Prop} [Decidable c] {y : Except ε α} (hx : c → Returns P x)
    (hy : ¬ c → Returns P y) : Returns P (if c then x else y) :=
  iteInduction hx hy

theorem Returns.map {f : α → β} (h : Returns P x) (hf : ∀ a, P a → Q (f a)) :
    Returns Q (x.map f) := by
  intro b hb
  cases x with
  | error e => cases hb
  | ok a =>
    cases hb
    exact hf a (h a rfl)

theorem returns_true (x : Except ε α) : Returns (fun _ => True) x := fun _ _ => trivial

theorem map_eq_ok {f : α → β} {b : β} (h : x.map f = .ok b) : ∃ a, x = .ok a ∧ f a = b := by
  cases x with
  | error e => cases h
  | ok a => exact ⟨a, rfl, Except.ok.inj h⟩

theorem bind_eq_ok {f : α → Except ε β} {b : β} (h : x.bind f = .ok b) :
    ∃ a, x = .ok a ∧ f a = .ok b := by
  cases x with
  | error e => cases h
  | ok a => exact ⟨a, rfl, h⟩

theorem mapM_eq_ok_map {xs : List α} {f : α → Except ε β} {g : α → β}
    (h : ∀ x ∈ xs, f x = .ok (g x)) : xs.mapM f = .ok (xs.map g) := by
  induction xs with
  | nil => rfl
  | cons x xs ih =>
    rw [List.mapM_cons, h x (.head _), ih fun y hy => h y (.tail _ hy)]
    rfl

theorem mapM_eq_ok {xs : List α} {f : α → Except ε β} {ys : List β} :
    xs.mapM f = .ok ys ↔ xs.map f = ys.map .ok := by
  induction xs generalizing ys with
  | nil => cases ys <;> simp [pure, Except.pure]
  | cons x xs ih =>
    rw [List.mapM_cons]
    cases hx : f x with
    | error e => cases ys <;> simp [hx, bind, Except.bind]
    | ok y =>
      cases hxs : xs.mapM f with
      | error e =>
        have hne (ys : List β) : xs.map f ≠ ys.map .ok := fun h => by
          rw [ih.2 h] at hxs
          cases hxs
        cases ys with
        | nil => simp [bind, Except.bind]
        | cons y' ys => simp [hx, hne ys, bind, Except.bind]
      | ok zs =>
        have hzs : xs.map f = zs.map .ok := ih.1 hxs
        cases ys with
        | nil => simp [bind, Except.bind, pure, Except.pure]
        | cons y' ys =>
          have hinj : zs.map (Except.ok (ε := ε)) = ys.map .ok ↔ zs = ys :=
            List.map_inj_right fun _ _ h => Except.ok.inj h
          simp [hx, hzs, hinj, bind, Except.bind, pure, Except.pure]

/-- Where no item fails, neither does the list. -/
theorem exists_mapM_eq_ok {xs : List α} {f : α → Except ε β}
    (h : ∀ x ∈ xs, ∃ y, f x = .ok y) : ∃ ys, xs.mapM f = .ok ys := by
  induction xs with
  | nil => exact ⟨[], rfl⟩
  | cons x xs ih =>
    obtain ⟨y, hy⟩ := h x (.head _)
    obtain ⟨ys, hys⟩ := ih fun z hz => h z (.tail _ hz)
    exact ⟨y :: ys, by rw [List.mapM_cons, hy, hys]; rfl⟩

end Outcome

/-- A visit of a traversal: the state before it, the item visited and what was decided for it. -/
structure Visit (σ α δ : Type*) where
  before : σ
  item : α
  decision : δ

section Traverse
variable {σ α δ ε : Type*} (step : σ → α → Except ε (δ × σ)) (act : α → δ → Except ε Unit)

/-- Visit the items in turn, decide and act on each; the first failure ends the traversal. -/
def traverse : σ → List α → List (Visit σ α δ) × Except ε σ
  | s, [] => ([], .ok s)
  | s, a :: as =>
    match step s a with
    | .error e => ([], .error e)
    | .ok (d, s') =>
      match act a d with
      | .error e => ([⟨s, a, d⟩], .error e)
      | .ok () => (⟨s, a, d⟩ :: (traverse s' as).1, (traverse s' as).2)

variable {step act}

theorem traverse_cons_of_ok {s s' : σ} (hstep : step s a = .ok (d, s')) (hact : act a d = .ok ()) :
    traverse step act s (a :: as) =
      (⟨s, a, d⟩ :: (traverse step act s' as).1, (traverse step act s' as).2) := by
  rw [traverse, hstep]
  simp only [hact]

/-- What holds at the start and is preserved by every step holds at every visit. -/
theorem visits_invariant {I : σ → Prop}
    (hstep : ∀ {s a d s'}, I s → step s a = .ok (d, s') → I s') {s : σ} {as : List α}
    (h₀ : I s) {v : Visit σ α δ} (hv : v ∈ (traverse step act s as).1) :
    I v.before ∧ v.item ∈ as ∧ ∃ s', step v.before v.item = .ok (v.decision, s') := by
  induction as generalizing s with
  | nil => cases hv
  | cons a as ih =>
    rw [traverse] at hv
    cases hs : step s a with
    | error e =>
      rw [hs] at hv
      cases hv
    | ok r =>
      obtain ⟨d, s'⟩ := r
      rw [hs] at hv
      cases hact : act a d with
      | error e =>
        simp only [hact, List.mem_singleton] at hv
        subst hv
        exact ⟨h₀, .head _, s', hs⟩
      | ok u =>
        simp only [hact, List.mem_cons] at hv
        rcases hv with rfl | hv
        · exact ⟨h₀, .head _, s', hs⟩
        · obtain ⟨hinv, hmem, hdec⟩ := ih (hstep h₀ hs) hv
          exact ⟨hinv, .tail _ hmem, hdec⟩

theorem visits_items_of_ok {s s' : σ} {as : List α} (h : (traverse step act s as).2 = .ok s') :
    (traverse step act s as).1.map (·.item) = as := by
  induction as generalizing s with
  | nil => rfl
  | cons a as ih =>
    rw [traverse] at h ⊢
    cases hs : step s a with
    | error e =>
      rw [hs] at h
      cases h
    | ok r =>
      obtain ⟨d, s''⟩ := r
      rw [hs] at h
      cases hact : act a d with
      | error e =>
        simp only [hact] at h
        cases h
      | ok u =>
        simp only [hact] at h ⊢
        rw [List.map_cons, ih h]

theorem traverse_completes {I : σ → Prop} {as : List α}
    (hstep : ∀ {s a}, I s → a ∈ as →
      ∃ d s', step s a = .ok (d, s') ∧ I s' ∧ act a d = .ok ()) {s : σ} (h₀ : I s) :
    ∃ s', (traverse step act s as).2 = .ok s' := by
  induction as generalizing s with
  | nil => exact ⟨s, rfl⟩
  | cons a as ih =>
    obtain ⟨d, s', hs, hinv, hact⟩ := hstep h₀ (.head _)
    rw [traverse_cons_of_ok hs hact]
    exact ih (fun hinv ha => hstep hinv (.tail _ ha)) hinv

/-- A counter that every step moves for the items that count ends up with their number. -/
theorem traverse_counts {I : σ → Prop} {f : σ → Nat} {q : α → Bool} {as : List α}
    (hstep : ∀ {s a d s'}, a ∈ as → I s → step s a = .ok (d, s') →
      I s' ∧ f s' = f s + if q a then 1 else 0) {s s' : σ} (h₀ : I s)
    (h : (traverse step act s as).2 = .ok s') : I s' ∧ f s' = f s + as.countP q := by
  induction as generalizing s with
  | nil =>
    cases h
    exact ⟨h₀, rfl⟩
  | cons a as ih =>
    rw [traverse] at h
    cases hs : step s a with
    | error e =>
      rw [hs] at h
      cases h
    | ok r =>
      obtain ⟨d, s''⟩ := r
      rw [hs] at h
      cases hact : act a d with
      | error e =>
        simp only [hact] at h
        cases h
      | ok u =>
        simp only [hact] at h
        obtain ⟨hinv, hmoved⟩ := hstep (.head _) h₀ hs
        obtain ⟨hinv', hcount⟩ := ih (fun ha => hstep (.tail _ ha)) hinv h
        refine ⟨hinv', ?_⟩
        rw [hcount, hmoved, List.countP_cons, Nat.add_assoc, Nat.add_comm (List.countP q as)]

end Traverse

/-- A computation on a state that may return early, without a result, or end the process. -/
def Attempt (σ α : Type) : Type := σ → Option (Option α × σ)

section Attempts
variable {σ α β : Type}

namespace Attempt

def ret (a : α) : Attempt σ α := fun s => some (some a, s)

def fail : Attempt σ α := fun s => some (none, s)

/-- The computation goes on only if the condition holds. -/
def check (c : Prop) [Decidable c] : Attempt σ Unit := if c then ret () else fail

def modify (f : σ → σ) : Attempt σ Unit := fun s => some (some (), f s)

def act (f : σ → α × σ) : Attempt σ α := fun s => some (some (f s).1, (f s).2)

/-- A value the process does not get past the lack of. -/
def demand (o : Option α) : Attempt σ α := fun s => o.map fun a => (some a, s)

def andThen (m : Attempt σ α) (k : α → Attempt σ β) : Attempt σ β := fun s =>
  (m s).bind fun r =>
    match r.1 with
    | some a => k a r.2
    | none => some (none, r.2)

instance : Monad (Attempt σ) where
  pure := ret
  bind := andThen

end Attempt

/-- From a state with `P` the computation ends with a result and `Q`, or early with `E`. -/
def Triple (P : σ → Prop) (m : Attempt σ α) (Q : α → σ → Prop) (E : σ → Prop) : Prop :=
  ∀ s r s', P s → m s = some (r, s') → r.elim (E s') fun a => Q a s'

variable {P : σ → Prop} {Q : α → σ → Prop} {R : β → σ → Prop} {E : σ → Prop}

theorem triple_true (m : Attempt σ α) : Triple P m (fun _ _ => True) fun _ => True := by
  intro s r s' _ _
  cases r <;> trivial

/-- A condition that is not about the state may be taken out. -/
theorem triple_of_prop {p : Prop} {m : Attempt σ α} (h : p → Triple (fun _ => True) m Q E) :
    Triple (fun _ => p) m Q E :=
  fun s r s' hp hs => h hp s r s' trivial hs

theorem triple_pure {a : α} (h : ∀ s, P s → Q a s) : Triple P (pure a) Q E := by
  intro s r s' hP hs
  cases hs
  exact h s hP

theorem triple_fail (h : ∀ s, P s → E s) : Triple P (Attempt.fail : Attempt σ α) Q E := by
  intro s r s' hP hs
  cases hs
  exact h s hP

theorem triple_check {c : Prop} [Decidable c] {Q : Unit → σ → Prop} (h : ∀ s, P s → c → Q () s)
    (hE : ∀ s, P s → ¬ c → E s) : Triple P (Attempt.check c) Q E := by
  rw [Attempt.check]
  split
  case isTrue hc => exact triple_pure fun s hP => h s hP hc
  case isFalse hc => exact triple_fail fun s hP => hE s hP hc

theorem triple_modify {f : σ → σ} {Q : Unit → σ → Prop} (h : ∀ s, P s → Q () (f s)) :
    Triple P (Attempt.modify f) Q E := by
  intro s r s' hP hs
  cases hs
  exact h s hP

theorem triple_act {f : σ → α × σ} (h : ∀ s, P s → Q (f s).1 (f s).2) :
    Triple P (Attempt.act f) Q E := by
  intro s r s' hP hs
  cases hs
  exact h s hP

theorem triple_demand {o : Option α} (h : ∀ a s, P s → o = some a → Q a s) :
    Triple P (Attempt.demand o) Q E := by
  intro s r s' hP hs
  obtain ⟨a, ha, hr⟩ := Option.map_eq_some_iff.1 hs
  cases hr
  exact h a s hP ha

theorem triple_bind {m : Attempt σ α} {k : α → Attempt σ β} (hm : Triple P m Q E)
    (hk : ∀ a, Triple (Q a) (k a) R E) : Triple P (m >>= k) R E := by
  intro s r s' hP hs
  obtain ⟨⟨o, t⟩, ht, hs⟩ := Option.bind_eq_some_iff.1 hs
  have hm := hm s o t hP ht
  cases o with
  | none =>
    cases hs
    exact hm
  | some a => exact hk a t r s' hm hs

theorem triple_ite {c : Prop} [Decidable c] {m n : Attempt σ α} (hm : c → Triple P m Q E)
    (hn : ¬ c → Triple P n Q E) : Triple P (if c then m else n) Q E := by
  split
  case isTrue h => exact hm h
  case isFalse h => exact hn h

/-- A loop keeps what each of its turns keeps, with what is left of the items. -/
theorem triple_foldlM {f : β → α → Attempt σ β} {I : List α → β → σ → Prop} {xs : List α}
    (hf : ∀ x xs b, Triple (I (x :: xs) b) (f b x) (I xs) E) (b : β) :
    Triple (I xs b) (xs.foldlM f b) (I []) E := by
  induction xs generalizing b with
  | nil => exact triple_pure fun s hs => hs
  | cons x xs ih =>
    rw [List.foldlM_cons]
    exact triple_bind (hf x xs b) ih

end Attempts
end ActQuant.Lib
