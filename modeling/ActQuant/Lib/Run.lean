import Mathlib.Computability.StateTransition

namespace ActQuant.Lib

/-- A sequence of operations on a state, any of which may end the process. -/
def run (step : σ → ω → Option σ) : σ → List ω → Option σ
  | s, [] => some s
  | s, op :: ops => (step s op).bind fun t => run step t ops

/-- Every operation of a run meets a condition on the state it is called in. -/
def EachStep (step : σ → ω → Option σ) (P : σ → ω → Prop) : σ → List ω → Prop
  | _, [] => True
  | s, op :: ops => P s op ∧ ∀ t, step s op = some t → EachStep step P t ops

variable {step : σ → ω → Option σ} {P : σ → ω → Prop} {I : σ → Prop}

/-- What every good step preserves holds at the end of a run of good steps. -/
theorem run_invariant (hstep : ∀ {s t op}, I s → P s op → step s op = some t → I t)
    (h₀ : I s) (hP : EachStep step P s ops) (h : run step s ops = some t) : I t := by
  induction ops generalizing s with
  | nil =>
    cases h
    exact h₀
  | cons op ops ih =>
    obtain ⟨hop, hrest⟩ := hP
    cases hs : step s op with
    | none =>
      rw [run, hs] at h
      cases h
    | some u =>
      rw [run, hs] at h
      exact ih (hstep h₀ hop hs) (hrest u hs) h

theorem eachStep_true (s : σ) (ops : List ω) : EachStep step (fun _ _ => True) s ops := by
  induction ops generalizing s with
  | nil => trivial
  | cons op ops ih => exact ⟨trivial, fun t _ => ih t⟩

/-- What every step preserves holds at the end of a run. -/
theorem run_preserves (hstep : ∀ {s t op}, I s → step s op = some t → I t) (h₀ : I s)
    (h : run step s ops = some t) : I t :=
  run_invariant (fun hI _ hs => hstep hI hs) h₀ (eachStep_true s ops) h

/-- A run of good steps is carried out to its end where every good step is. -/
theorem run_total (hstep : ∀ {s op}, I s → P s op → ∃ t, step s op = some t ∧ I t) (h₀ : I s)
    (hP : EachStep step P s ops) : ∃ t, run step s ops = some t ∧ I t := by
  induction ops generalizing s with
  | nil => exact ⟨s, rfl, h₀⟩
  | cons op ops ih =>
    obtain ⟨hop, hrest⟩ := hP
    obtain ⟨u, hu, hI⟩ := hstep h₀ hop
    obtain ⟨t, ht, hIt⟩ := ih hI (hrest u hu)
    refine ⟨t, ?_, hIt⟩
    rw [run, hu]
    exact ht

end ActQuant.Lib

namespace ActQuant.Lib
open StateTransition

def loop (step : σ → Option σ) : Nat → σ → σ
  | 0, s => s
  | n + 1, s =>
    match step s with
    | none => s
    | some t => loop step n t

theorem loop_reaches (step : σ → Option σ) (n : Nat) (s : σ) :
    Reaches step s (loop step n s) := by
  induction n generalizing s with
  | zero => exact .refl
  | succ n ih =>
    cases hs : step s with
    | none => simp only [loop, hs]; exact .refl
    | some t =>
      simp only [loop, hs]
      exact .head hs (ih t)

theorem invariant_reaches {step : σ → Option σ} {I : σ → Prop} (h₀ : I s)
    (hstep : ∀ {t u}, I t → step t = some u → I u) (h : Reaches step s t) : I t := by
  induction h with
  | refl => exact h₀
  | tail _ hs ih => exact hstep ih hs

/-- A loop whose steps decrease a measure has stopped once the fuel covers the measure. -/
theorem loop_stopped {step : σ → Option σ} {I : σ → Prop} (μ : σ → Nat)
    (hstep : ∀ {t u}, I t → step t = some u → I u)
    (hμ : ∀ {t u}, I t → step t = some u → μ u < μ t)
    (h₀ : I s) (hn : μ s ≤ n) : step (loop step n s) = none := by
  induction n generalizing s with
  | zero =>
    cases hs : step s with
    | none => exact hs
    | some t =>
      have hlt := hμ h₀ hs
      omega
  | succ n ih =>
    cases hs : step s with
    | none => simp only [loop, hs]
    | some t =>
      simp only [loop, hs]
      have hlt := hμ h₀ hs
      exact ih (hstep h₀ hs) (by omega)


/-! Computations that are given an amount of fuel, and what they return with enough of it. -/

/-- More fuel changes no result. -/
def Steady (f : Nat → Option α) : Prop := ∀ n m a, n ≤ m → f n = some a → f m = some a

/-- The computation ends with `a`. -/
def Yields (f : Nat → Option α) (a : α) : Prop := ∃ n, f n = some a

theorem Steady.unique (hf : Steady f) (h : Yields f a) (h' : Yields f b) : a = b := by
  obtain ⟨n, hn⟩ := h
  obtain ⟨m, hm⟩ := h'
  have hmax := hf n (max n m) a (Nat.le_max_left n m) hn
  rw [hf m (max n m) b (Nat.le_max_right n m) hm] at hmax
  exact (Option.some.inj hmax).symm

theorem steady_const (o : Option α) : Steady fun _ => o := fun _ _ _ _ h => h

theorem returns_const : Yields (fun _ => o) a ↔ o = some a :=
  ⟨fun ⟨_, h⟩ => h, fun h => ⟨0, h⟩⟩

theorem Steady.bind {g : Nat → α → Option β} (hf : Steady f) (hg : ∀ a, Steady (g · a)) :
    Steady fun n => (f n).bind (g n) := by
  intro n m b hnm h
  obtain ⟨a, ha, hb⟩ := Option.bind_eq_some_iff.1 h
  exact Option.bind_eq_some_iff.2 ⟨a, hf n m a hnm ha, hg a n m b hnm hb⟩

theorem returns_bind {g : Nat → α → Option β} (hf : Steady f) (hg : ∀ a, Steady (g · a)) :
    Yields (fun n => (f n).bind (g n)) b ↔ ∃ a, Yields f a ∧ Yields (g · a) b := by
  constructor
  · rintro ⟨n, h⟩
    obtain ⟨a, ha, hb⟩ := Option.bind_eq_some_iff.1 h
    exact ⟨a, ⟨n, ha⟩, ⟨n, hb⟩⟩
  · rintro ⟨a, ⟨n, ha⟩, ⟨m, hb⟩⟩
    refine ⟨max n m, Option.bind_eq_some_iff.2 ⟨a, ?_, ?_⟩⟩
    · exact hf n _ a (Nat.le_max_left n m) ha
    · exact hg a m _ b (Nat.le_max_right n m) hb

/-- A computation that needs one unit of fuel more than another. -/
theorem returns_succ (h0 : f 0 = none) (hs : ∀ n, f (n + 1) = g n) :
    Yields f a ↔ Yields g a := by
  constructor
  · rintro ⟨n, h⟩
    cases n with
    | zero =>
      rw [h0] at h
      cases h
    | succ n => exact ⟨n, (hs n).symm.trans h⟩
  · rintro ⟨n, h⟩
    exact ⟨n + 1, (hs n).trans h⟩

/-- The results of a computation on two amounts of fuel. -/
theorem steady_of_succ (h : ∀ n a, f n = some a → f (n + 1) = some a) : Steady f := by
  intro n m a hnm hn
  induction hnm with
  | refl => exact hn
  | step _ ih => exact h _ a ih

/-- A fold returns what it does with steps that return more. -/
theorem foldlM_mono {f g : β → α → Option β} (h : ∀ b a c, f b a = some c → g b a = some c)
    {l : List α} {b : β} (hf : l.foldlM f b = some c) : l.foldlM g b = some c := by
  induction l generalizing b with
  | nil => exact hf
  | cons a l ih =>
    rw [List.foldlM_cons] at hf ⊢
    obtain ⟨mid, hmid, hc⟩ := Option.bind_eq_some_iff.1 hf
    exact Option.bind_eq_some_iff.2 ⟨mid, h _ _ _ hmid, ih hc⟩

section Fold
variable {f : Nat → β → α → Option β} {l : List α} {b : β}

theorem Steady.foldlM (hf : ∀ b a, Steady fun n => f n b a) (l : List α) (b : β) :
    Steady fun n => l.foldlM (f n) b := by
  induction l generalizing b with
  | nil => exact steady_const _
  | cons a l ih => exact (hf b a).bind ih

theorem returns_foldlM_nil : Yields (fun n => ([] : List α).foldlM (f n) b) c ↔ c = b := by
  constructor
  · rintro ⟨_, h⟩
    exact (Option.some.inj h).symm
  · rintro rfl
    exact ⟨0, rfl⟩

theorem returns_foldlM_cons (hf : ∀ b a, Steady fun n => f n b a) :
    Yields (fun n => (a :: l).foldlM (f n) b) c ↔
      ∃ b', Yields (fun n => f n b a) b' ∧ Yields (fun n => l.foldlM (f n) b') c :=
  returns_bind (hf b a) fun b' => Steady.foldlM hf l b'

/-- A fold returns where each of its steps does. -/
theorem exists_foldlM (hf : ∀ b a, Steady fun n => f n b a)
    (h : ∀ a ∈ l, ∀ b, ∃ c, Yields (fun n => f n b a) c) (b : β) :
    ∃ c, Yields (fun n => l.foldlM (f n) b) c := by
  induction l generalizing b with
  | nil => exact ⟨b, returns_foldlM_nil.2 rfl⟩
  | cons a l ih =>
    obtain ⟨b', hb'⟩ := h a (.head _) b
    obtain ⟨c, hc⟩ := ih (fun a ha => h a (.tail _ ha)) b'
    exact ⟨c, (returns_foldlM_cons hf).2 ⟨b', hb', hc⟩⟩

/-- Each step of a fold that returns does. -/
theorem foldlM_step {a : α} (hf : ∀ b a, Steady fun n => f n b a)
    (h : Yields (fun n => l.foldlM (f n) b) c) (ha : a ∈ l) :
    ∃ b' c', Yields (fun n => f n b' a) c' := by
  induction l generalizing b with
  | nil => cases ha
  | cons a' l ih =>
    obtain ⟨b', hb', hc⟩ := (returns_foldlM_cons hf).1 h
    cases ha with
    | head => exact ⟨b, b', hb'⟩
    | tail _ ha => exact ih hc ha

end Fold

/-- What the steps of a fold add to a list. -/
theorem mem_foldlM {f : Nat → List β → α → Option (List β)} {R : α → β → Prop} {l : List α}
    {b : List β}
    (hf : ∀ b a, Steady fun n => f n b a)
    (hR : ∀ a ∈ l, ∀ b c, Yields (fun n => f n b a) c → ∀ s, s ∈ c ↔ s ∈ b ∨ R a s)
    (h : Yields (fun n => l.foldlM (f n) b) c) (s : β) : s ∈ c ↔ s ∈ b ∨ ∃ a ∈ l, R a s := by
  induction l generalizing b with
  | nil =>
    rw [returns_foldlM_nil.1 h]
    simp
  | cons a l ih =>
    obtain ⟨b', hb', hc⟩ := (returns_foldlM_cons hf).1 h
    rw [ih (fun a ha => hR a (.tail _ ha)) hc, hR a (.head _) b b' hb']
    simp [or_assoc]

end ActQuant.Lib
