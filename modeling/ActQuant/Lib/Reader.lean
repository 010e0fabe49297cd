import ActQuant.Lib.Bytes

namespace ActQuant.Lib

/-- The outcome of a reader: a value, a refusal, or a fault that ends the process. -/
inductive Load (ε α : Type) where
  | ok (a : α)
  | null
  | crash (f : ε)

def Load.bind (x : Load ε α) (g : α → Load ε β) : Load ε β :=
  match x with
  | .ok a => g a
  | .null => .null
  | .crash f => .crash f

instance : Monad (Load ε) where
  pure := .ok
  bind := Load.bind

theorem Load.bind_eq_ok {x : Load ε α} {g : α → Load ε β} :
    x.bind g = .ok b ↔ ∃ a, x = .ok a ∧ g a = .ok b := by
  cases x with
  | ok a => exact ⟨fun h => ⟨a, rfl, h⟩, fun ⟨_, ha, h⟩ => by cases ha; exact h⟩
  | null => exact ⟨fun h => (nomatch h), fun ⟨_, ha, _⟩ => (nomatch ha)⟩
  | crash f => exact ⟨fun h => (nomatch h), fun ⟨_, ha, _⟩ => (nomatch ha)⟩

theorem Load.bind_eq_crash {x : Load ε α} {g : α → Load ε β} :
    x.bind g = .crash f ↔ x = .crash f ∨ ∃ a, x = .ok a ∧ g a = .crash f := by
  cases x with
  | ok a =>
    refine ⟨fun h => .inr ⟨a, rfl, h⟩, ?_⟩
    rintro (h | ⟨_, ha, h⟩)
    · cases h
    · cases ha
      exact h
  | null =>
    refine ⟨fun h => (nomatch h), ?_⟩
    rintro (h | ⟨_, ha, _⟩)
    · cases h
    · cases ha
  | crash f' =>
    constructor
    · intro h
      cases h
      exact .inl rfl
    · rintro (h | ⟨_, ha, _⟩)
      · cases h
        rfl
      · cases ha

theorem Load.check_eq_ok {c : Prop} [Decidable c] {e : ε} {a b : α} :
    (if c then Load.crash e else .ok a) = .ok b ↔ b = a ∧ ¬ c := by
  by_cases hc : c
  · rw [if_pos hc]
    exact ⟨fun h => (nomatch h), fun h => (h.2 hc).elim⟩
  · rw [if_neg hc]
    exact ⟨fun h => ⟨(Load.ok.inj h).symm, hc⟩, fun h => congrArg Load.ok h.1.symm⟩

theorem Load.check_eq_crash {c : Prop} [Decidable c] {e f : ε} {a : α} :
    (if c then Load.crash e else .ok a) = .crash f ↔ f = e ∧ c := by
  by_cases hc : c
  · rw [if_pos hc]
    exact ⟨fun h => ⟨(Load.crash.inj h).symm, hc⟩, fun h => congrArg Load.crash h.1.symm⟩
  · rw [if_neg hc]
    exact ⟨fun h => (nomatch h), fun h => (hc h.2).elim⟩

/-- A reader takes its value from the front of the bytes that are left. -/
def Reader (ε α : Type) : Type := List UInt8 → Load ε (α × List UInt8)

namespace Reader

instance : Monad (Reader ε) where
  pure a := fun bs => .ok (a, bs)
  bind p q := fun bs => (p bs).bind fun x => q x.1 x.2

def null : Reader ε α := fun _ => .null

def crash (f : ε) : Reader ε α := fun _ => .crash f

/-- So many bytes, or none where the file ends before. -/
def bytes (n : Nat) : Reader ε (List UInt8) := fun bs =>
  if bs.length < n then .null else .ok (bs.take n, bs.drop n)

/-- A loop of so many turns. -/
def loop (step : σ → Reader ε σ) : Nat → σ → Reader ε σ
  | 0, s => pure s
  | n + 1, s => do
    let s ← step s
    loop step n s

/-- A reader takes the values of a format, each from one of its encodings, and crashes on the bytes
given. -/
structure Spec (p : Reader ε α) (G : List UInt8 → α → Prop) (F : ε → List UInt8 → Prop) : Prop where
  ok : ∀ {bs a rest}, p bs = .ok (a, rest) ↔ ∃ enc, bs = enc ++ rest ∧ G enc a
  crash : ∀ {bs f}, p bs = .crash f ↔ F f bs

/-- One format after the other. -/
def Then (G : List UInt8 → α → Prop) (G' : α → List UInt8 → β → Prop) (bs : List UInt8) (b : β) :
    Prop :=
  ∃ a enc enc', bs = enc ++ enc' ∧ G enc a ∧ G' a enc' b

/-- A fault behind a value of a format. -/
def After (G : List UInt8 → α → Prop) (F : α → ε → List UInt8 → Prop) (f : ε) (bs : List UInt8) :
    Prop :=
  ∃ a enc rest, bs = enc ++ rest ∧ G enc a ∧ F a f rest

/-- A format repeated. -/
inductive Iter (G : σ → List UInt8 → σ → Prop) : Nat → σ → List UInt8 → σ → Prop where
  | zero : Iter G 0 s [] s
  | succ (h : G s enc t) (hrest : Iter G n t enc' u) : Iter G (n + 1) s (enc ++ enc') u

/-- A list of values, each in one of its encodings. -/
inductive Many (G : List UInt8 → α → Prop) : List UInt8 → List α → Prop where
  | nil : Many G [] []
  | cons (h : G enc a) (hrest : Many G rest as) : Many G (enc ++ rest) (a :: as)

def NoFault (_ : ε) (_ : List UInt8) : Prop := False

variable {p : Reader ε α} {G : List UInt8 → α → Prop} {F : ε → List UInt8 → Prop}

theorem spec_pure (a : α) :
    Spec (pure a : Reader ε α) (fun enc a' => enc = [] ∧ a' = a) NoFault where
  ok := by
    intro bs a' rest
    constructor
    · intro h
      cases h
      exact ⟨[], rfl, rfl, rfl⟩
    · rintro ⟨_, rfl, rfl, rfl⟩
      rfl
  crash := ⟨fun h => (nomatch h), fun h => h.elim⟩

theorem spec_null : Spec (null : Reader ε α) (fun _ _ => False) NoFault where
  ok := ⟨fun h => (nomatch h), fun ⟨_, _, h⟩ => h.elim⟩
  crash := ⟨fun h => (nomatch h), fun h => h.elim⟩

theorem spec_crash (f : ε) :
    Spec (crash f : Reader ε α) (fun _ _ => False) (fun f' _ => f' = f) where
  ok := ⟨fun h => (nomatch h), fun ⟨_, _, h⟩ => h.elim⟩
  crash := by
    intro bs f'
    constructor
    · intro h
      cases h
      rfl
    · rintro rfl
      rfl

theorem spec_bytes (n : Nat) :
    Spec (bytes n : Reader ε _) (fun enc bs => bs = enc ∧ enc.length = n) NoFault where
  ok := by
    intro bs a rest
    rw [bytes]
    constructor
    · intro h
      split at h
      case isTrue => cases h
      case isFalse hn =>
        cases h
        exact ⟨bs.take n, (List.take_append_drop n bs).symm, rfl,
          List.length_take_of_le (Nat.le_of_not_lt hn)⟩
    · rintro ⟨_, rfl, rfl, rfl⟩
      rw [if_neg (by rw [List.length_append]; omega), List.take_left, List.drop_left]
  crash := by
    intro bs f
    rw [bytes]
    constructor
    · intro h
      split at h <;> cases h
    · intro h
      exact h.elim

theorem Spec.bind {q : α → Reader ε β} {G' : α → List UInt8 → β → Prop}
    {F' : α → ε → List UInt8 → Prop} (hp : Spec p G F) (hq : ∀ a, Spec (q a) (G' a) (F' a)) :
    Spec (p >>= q) (Then G G') (fun f bs => F f bs ∨ After G F' f bs) where
  ok := by
    intro bs b rest
    change (p bs).bind _ = _ ↔ _
    rw [Load.bind_eq_ok]
    constructor
    · rintro ⟨⟨a, mid⟩, ha, hb⟩
      obtain ⟨enc, rfl, hG⟩ := hp.ok.1 ha
      obtain ⟨enc', rfl, hG'⟩ := (hq a).ok.1 hb
      exact ⟨enc ++ enc', (List.append_assoc _ _ _).symm, a, enc, enc', rfl, hG, hG'⟩
    · rintro ⟨_, rfl, a, enc, enc', rfl, hG, hG'⟩
      refine ⟨(a, enc' ++ rest), hp.ok.2 ⟨enc, List.append_assoc _ _ _, hG⟩, ?_⟩
      exact (hq a).ok.2 ⟨enc', rfl, hG'⟩
  crash := by
    intro bs f
    change (p bs).bind _ = _ ↔ _
    rw [Load.bind_eq_crash, hp.crash]
    constructor
    · rintro (hF | ⟨⟨a, mid⟩, ha, hb⟩)
      · exact .inl hF
      · obtain ⟨enc, rfl, hG⟩ := hp.ok.1 ha
        exact .inr ⟨a, enc, mid, rfl, hG, (hq a).crash.1 hb⟩
    · rintro (hF | ⟨a, enc, rest, rfl, hG, hF⟩)
      · exact .inl hF
      · exact .inr ⟨(a, rest), hp.ok.2 ⟨enc, rfl, hG⟩, (hq a).crash.2 hF⟩

theorem Spec.congr {G' : List UInt8 → α → Prop} {F' : ε → List UInt8 → Prop} (h : Spec p G F)
    (hG : ∀ enc a, G enc a ↔ G' enc a) (hF : ∀ f bs, F f bs ↔ F' f bs) : Spec p G' F' where
  ok := by
    intro bs a rest
    rw [h.ok]
    exact exists_congr fun enc => and_congr_right fun _ => hG enc a
  crash := by
    intro bs f
    rw [h.crash]
    exact hF f bs

theorem Spec.ite {q : Reader ε α} {G' : List UInt8 → α → Prop} {F' : ε → List UInt8 → Prop}
    {c : Prop} [Decidable c] (hp : c → Spec p G F) (hq : ¬ c → Spec q G' F') :
    Spec (if c then p else q) (fun enc a => c ∧ G enc a ∨ ¬ c ∧ G' enc a)
      (fun f bs => c ∧ F f bs ∨ ¬ c ∧ F' f bs) := by
  by_cases hc : c
  · rw [if_pos hc]
    refine (hp hc).congr ?_ ?_
    · intro enc a
      rw [eq_true hc, true_and, not_true, false_and, or_false]
    · intro f bs
      rw [eq_true hc, true_and, not_true, false_and, or_false]
  · rw [if_neg hc]
    refine (hq hc).congr ?_ ?_
    · intro enc a
      rw [eq_false hc, false_and, not_false_iff, true_and, false_or]
    · intro f bs
      rw [eq_false hc, false_and, not_false_iff, true_and, false_or]

/-- A check that refuses. -/
theorem Spec.guard {c : Prop} [Decidable c] (hp : ¬ c → Spec p G F) :
    Spec (if c then Reader.null else p) (fun enc a => ¬ c ∧ G enc a) (fun f bs => ¬ c ∧ F f bs) := by
  refine (Spec.ite (fun _ => spec_null) hp).congr ?_ ?_
  · intro enc a
    rw [and_false, false_or]
  · intro f bs
    exact ⟨fun h => h.resolve_left fun h => h.2, .inr⟩

/-- An assertion. -/
theorem Spec.check (f : ε) {c : Prop} [Decidable c] {p : ¬ c → Reader ε α}
    (hp : ∀ h, Spec (p h) G F) :
    Spec (if h : c then Reader.crash f else p h) (fun enc a => ¬ c ∧ G enc a)
      (fun f' bs => c ∧ f' = f ∨ ¬ c ∧ F f' bs) := by
  by_cases hc : c
  · rw [dif_pos hc]
    refine (spec_crash f).congr ?_ ?_
    · intro enc a
      exact ⟨fun h => h.elim, fun h => h.1 hc⟩
    · intro f' bs
      exact ⟨fun h => .inl ⟨hc, h⟩, fun h => (h.resolve_right fun h => h.1 hc).2⟩
  · rw [dif_neg hc]
    refine (hp hc).congr ?_ ?_
    · intro enc a
      exact (and_iff_right hc).symm
    · intro f' bs
      exact ⟨fun h => .inr ⟨hc, h⟩, fun h => (h.resolve_left fun h => hc h.1).2⟩

/-- What a loop reads is read by its turns, one after the other; it crashes in one of them. -/
theorem Spec.loop {step : σ → Reader ε σ} {G : σ → List UInt8 → σ → Prop}
    {F : σ → ε → List UInt8 → Prop} (h : ∀ s, Spec (step s) (G s) (F s)) (n : Nat) (s : σ) :
    Spec (loop step n s) (Iter G n s)
      (fun f bs => ∃ m < n, After (Iter G m s) F f bs) := by
  induction n generalizing s with
  | zero =>
    refine (spec_pure s).congr ?_ ?_
    · intro enc t
      constructor
      · rintro ⟨rfl, rfl⟩
        exact .zero
      · intro hiter
        cases hiter
        exact ⟨rfl, rfl⟩
    · intro f bs
      exact ⟨fun h => h.elim, fun ⟨_, hm, _⟩ => (Nat.not_lt_zero _ hm).elim⟩
  | succ n ih =>
    refine ((h s).bind fun t => ih t).congr ?_ ?_
    · intro enc u
      constructor
      · rintro ⟨t, enc₁, enc₂, rfl, hG, hiter⟩
        exact .succ hG hiter
      · intro hiter
        cases hiter with
        | succ hG hrest => exact ⟨_, _, _, rfl, hG, hrest⟩
    · intro f bs
      constructor
      · rintro (hF | ⟨t, enc, rest, rfl, hG, m, hm, u, enc', rest', rfl, hiter, hF⟩)
        · exact ⟨0, Nat.succ_pos n, s, [], bs, rfl, .zero, hF⟩
        · exact ⟨m + 1, Nat.succ_lt_succ hm, u, enc ++ enc', rest',
            (List.append_assoc _ _ _).symm, .succ hG hiter, hF⟩
      · rintro ⟨m, hm, u, enc, rest, rfl, hiter, hF⟩
        cases hiter with
        | zero => exact .inl hF
        | succ hG hrest =>
          exact .inr ⟨_, _, _, List.append_assoc _ _ _, hG, _, Nat.lt_of_succ_lt_succ hm, _, _,
            _, rfl, hrest, hF⟩

/-- A loop that collects what it reads. -/
theorem iter_snoc {G : List UInt8 → α → Prop} {xs ys : List α} :
    Iter (fun xs enc ys => ∃ a, G enc a ∧ ys = xs ++ [a]) n xs enc ys ↔
      ∃ more, Many G enc more ∧ more.length = n ∧ ys = xs ++ more := by
  constructor
  · intro h
    induction h with
    | @zero xs => exact ⟨[], .nil, rfl, (List.append_nil xs).symm⟩
    | succ h _ ih =>
      obtain ⟨a, hG, rfl⟩ := h
      obtain ⟨more, hmany, rfl, rfl⟩ := ih
      exact ⟨a :: more, .cons hG hmany, rfl, List.append_assoc _ _ _⟩
  · rintro ⟨more, hmany, rfl, rfl⟩
    induction hmany generalizing xs with
    | nil =>
      rw [List.append_nil]
      exact .zero
    | @cons enc a rest as h _ ih =>
      have hrest : Iter _ _ (xs ++ [a]) _ (xs ++ [a] ++ as) := ih
      rw [List.append_assoc] at hrest
      exact .succ ⟨_, h, rfl⟩ hrest

theorem Spec.map (h : Spec p G F) (g : α → β) :
    Spec (p >>= fun a => pure (g a)) (fun enc b => ∃ a, G enc a ∧ b = g a) F := by
  refine (h.bind fun a => spec_pure (g a)).congr ?_ ?_
  · intro enc b
    constructor
    · rintro ⟨a, enc, _, rfl, hG, rfl, rfl⟩
      rw [List.append_nil]
      exact ⟨a, hG, rfl⟩
    · rintro ⟨a, hG, rfl⟩
      exact ⟨a, enc, [], (List.append_nil enc).symm, hG, rfl, rfl⟩
  · intro f bs
    constructor
    · rintro (hF | ⟨_, _, _, _, _, hno⟩)
      · exact hF
      · exact hno.elim
    · exact .inl

/-- A little-endian number of a width. -/
def number (width : Nat) : Reader ε Nat := do
  let bs ← bytes width
  return ofLe bs

theorem spec_number (width : Nat) :
    Spec (number width : Reader ε Nat) (fun enc n => enc = leBytes width n ∧ n < 256 ^ width)
      NoFault := by
  refine ((spec_bytes width).map ofLe).congr ?_ fun _ _ => Iff.rfl
  intro enc n
  constructor
  · rintro ⟨_, ⟨rfl, rfl⟩, rfl⟩
    rw [leBytes_ofLe]
    exact ⟨rfl, ofLe_lt _⟩
  · rintro ⟨rfl, hn⟩
    exact ⟨leBytes width n, ⟨rfl, length_leBytes width n⟩, (ofLe_leBytes hn).symm⟩

end Reader

/-! Readers that take the same bytes. -/

/-- Two outcomes of one kind, their values being related. -/
inductive Load.Alike (R : α → β → Prop) : Load ε α → Load ε β → Prop where
  | ok (h : R a b) : Alike R (.ok a) (.ok b)
  | null : Alike R .null .null
  | crash (f : ε) : Alike R (.crash f) (.crash f)

/-- The values behind the same bytes. -/
def SameRest (R : α → β → Prop) (x : α × List UInt8) (y : β × List UInt8) : Prop :=
  R x.1 y.1 ∧ x.2 = y.2

/-- Two readers that take the same bytes and end alike. -/
def Reader.Alike (R : α → β → Prop) (p : Reader ε α) (q : Reader ε β) : Prop :=
  ∀ bs, Load.Alike (SameRest R) (p bs) (q bs)

namespace Reader.Alike

variable {R : α → β → Prop} {S : γ → δ → Prop}

theorem refl (p : Reader ε α) : Alike Eq p p := by
  intro bs
  cases p bs with
  | ok x => exact .ok ⟨rfl, rfl⟩
  | null => exact .null
  | crash f => exact .crash f

theorem pure (h : R a b) : Alike R (pure a : Reader ε α) (pure b) :=
  fun _ => .ok ⟨h, rfl⟩

theorem crash (f : ε) : Alike R (Reader.crash f) (Reader.crash f) :=
  fun _ => .crash f

theorem bind {p : Reader ε α} {q : Reader ε β} {p' : α → Reader ε γ} {q' : β → Reader ε δ}
    (h : Alike R p q) (h' : ∀ a b, R a b → Alike S (p' a) (q' b)) :
    Alike S (p >>= p') (q >>= q') := by
  intro bs
  change Load.Alike _ ((p bs).bind _) ((q bs).bind _)
  have hxy := h bs
  generalize p bs = x at hxy ⊢
  generalize q bs = y at hxy ⊢
  cases hxy with
  | @ok a b hab =>
    obtain ⟨a, rest⟩ := a
    obtain ⟨b, rest'⟩ := b
    obtain ⟨hR, rfl : rest = rest'⟩ := hab
    exact h' a b hR rest
  | null => exact .null
  | crash f => exact .crash f

/-- The same reading first. -/
theorem after (p : Reader ε α) {p' : α → Reader ε γ} {q' : α → Reader ε δ}
    (h : ∀ a, Alike S (p' a) (q' a)) : Alike S (p >>= p') (p >>= q') := by
  refine bind (refl p) fun a b hab => ?_
  subst hab
  exact h a

theorem foldlM {f : α → γ → Reader ε α} {g : β → γ → Reader ε β} {xs : List γ}
    (h : ∀ a b, R a b → ∀ x ∈ xs, Alike R (f a x) (g b x)) (hab : R a b) :
    Alike R (xs.foldlM f a) (xs.foldlM g b) := by
  induction xs generalizing a b with
  | nil => exact pure hab
  | cons x xs ih =>
    rw [List.foldlM_cons, List.foldlM_cons]
    refine bind (h a b hab x List.mem_cons_self) fun a' b' hab' => ?_
    exact ih (fun a b hab y hy => h a b hab y (List.mem_cons_of_mem x hy)) hab'

end Reader.Alike
end ActQuant.Lib
