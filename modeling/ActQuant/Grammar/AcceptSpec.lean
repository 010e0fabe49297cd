import ActQuant.Grammar.AdvanceSpec

namespace ActQuant.Grammar
open Lib

/-! Accepting code points keeps the stacks whose symbols derive what is still to come. -/

/-- How many elements the class at the beginning of a sequence has. -/
def classLength (es : List Element) : Nat := (matchLoop 0 false es).2

theorem matchChar_eq (h : isClass (head es)) (chr : Nat) :
    ∃ found, matchChar es chr = some (found, classLength es) ∧ (found = true ↔ InClass es chr) := by
  have hne : es ≠ [] := by
    rintro rfl
    cases h
  have hfound := matchLoop_found chr es false hne
  have hlength := matchLoop_length chr 0 es false false
  rw [isClass, decide_eq_true_iff] at h
  simp only [Bool.false_eq_true, false_or] at hfound
  rw [matchChar, InClass, classLength, ← hlength]
  rcases h with h | h | h
  · refine ⟨(matchLoop chr false es).1, ?_, ?_⟩ <;> simp [h, hfound]
  · refine ⟨!(matchLoop chr false es).1, ?_, ?_⟩ <;> simp [h, ← hfound]
  · refine ⟨(matchLoop chr false es).1, ?_, ?_⟩ <;> simp [h, hfound]

namespace Rules
variable {G : Rules}

/-- The stack behind the class at the top of a stack. -/
def afterChar (G : Rules) (p : Pos) (rest : Stack) : Stack :=
  G.pushNext (p.add (classLength (G.from p))) rest

theorem class_after (h : isClass (head (G.from p))) :
    symbols ((G.from p).drop (classLength (G.from p))) = symbols (G.from p).tail ∧
      isModifier (head ((G.from p).drop (classLength (G.from p)))) = false := by
  apply matchLoop_after (G.chain_from p) (charElement_of_class h)
  intro hu
  simp [isClass, hu] at h

theorem symbolsOf_class (h : isClass (head (G.from p))) :
    G.symbolsOf (p :: rest) = .char (InClass (G.from p)) :: G.symbolsOf (G.afterChar p rest) := by
  rw [afterChar, symbolsOf_pushNext, symbolsOf_cons, G.from_add, (class_after h).1]
  cases hes : G.from p with
  | nil =>
    rw [hes] at h
    cases h
  | cons e es =>
    rw [hes, head_cons] at h
    rw [symbols_class h]
    rfl

theorem ValidStack.afterChar (hs : G.ValidStack (p :: rest)) (h : isClass (head (G.from p))) :
    G.ValidStack (G.afterChar p rest) := by
  apply hs.tail.pushNext
  rw [G.from_add]
  exact (class_after h).2

/-- A stack as expanding leaves it: empty, or with a class at its top. -/
inductive Ready (G : Rules) : Stack → Prop where
  | empty : Ready G []
  | char (h : isClass (head (G.from p))) (hs : G.ValidStack (p :: rest)) : Ready G (p :: rest)

theorem Ready.valid (h : G.Ready stack) : G.ValidStack stack := by
  cases h with
  | empty => exact validStack_nil
  | char _ hs => exact hs

theorem Expands.ready (h : G.Expands stack stack') (hs : G.ValidStack stack) :
    G.Ready stack' := by
  induction h with
  | empty => exact .empty
  | char h => exact .char h hs
  | ref h hsub _ ih => exact ih (hs.expandRef h hsub)

/-- The words of a stack are those of the stacks it expands to. -/
theorem derives_expands (hs : G.ValidStack stack) (h : Cfg.Halts G.alts (G.symbolsOf stack)) :
    Cfg.Derives G.alts (G.symbolsOf stack) w ↔
      ∃ stack', G.Expands stack stack' ∧ Cfg.Derives G.alts (G.symbolsOf stack') w := by
  constructor
  · intro hw
    generalize hss : G.symbolsOf stack = ss at h hw
    induction h generalizing stack with
    | intro ss _ ih =>
      subst hss
      cases stack with
      | nil => exact ⟨[], .empty, hw⟩
      | cons p rest =>
        rcases hs p (.head _) with hc | href
        · exact ⟨_, .char hc, hw⟩
        · obtain ⟨es, -, hid⟩ := from_ref href
          rw [symbolsOf_ref href, Cfg.derives_ref] at hw
          obtain ⟨alt, halt, hw⟩ := hw
          have hexp : Cfg.Expand G.alts (G.symbolsOf (p :: rest))
              (alt ++ G.symbolsOf (G.pushNext (p.add 1) rest)) := by
            rw [symbolsOf_ref href]
            exact .ref halt
          obtain ⟨sub, hsub, rfl⟩ := (mem_alts_iff hid).1 halt
          rw [← symbolsOf_expandRef] at hw hexp
          obtain ⟨stack', hstack', hw'⟩ := ih _ hexp (hs.expandRef href hsub) rfl hw
          exact ⟨stack', .ref href hsub hstack', hw'⟩
  · rintro ⟨stack', hexp, hw⟩
    clear h
    induction hexp with
    | empty => exact hw
    | char => exact hw
    | ref href hsub _ ih =>
      obtain ⟨es, -, hid⟩ := from_ref href
      have hrest := ih (hs.expandRef href hsub) hw
      rw [symbolsOf_expandRef] at hrest
      rw [symbolsOf_ref href, Cfg.derives_ref]
      exact ⟨_, (mem_alts_iff hid).2 ⟨_, hsub, rfl⟩, hrest⟩

/-- The stacks one stack leads to with a code point. -/
inductive Moves (G : Rules) (chr : Nat) : Stack → Stack → Prop where
  | char (h : isClass (head (G.from p))) (hchr : InClass (G.from p) chr)
      (hexp : G.Expands (G.afterChar p rest) stack) : Moves G chr (p :: rest) stack

/-- The stacks one stack leads to with several code points. -/
def MovesAll (G : Rules) : Stack → List Nat → Stack → Prop
  | stack, [], stack' => stack' = stack
  | stack, chr :: chrs, stack' => ∃ mid, G.Moves chr stack mid ∧ G.MovesAll mid chrs stack'

theorem Moves.ready (h : G.Moves chr stack stack') (hs : G.Ready stack) : G.Ready stack' := by
  cases h with
  | char h _ hexp => exact hexp.ready (hs.valid.afterChar h)

section Accept
variable {push : Stacks → Stack → Stacks}

theorem steady_acceptStack (chr : Nat) (newStacks : Stacks) (stack : Stack) :
    Steady fun fuel => G.acceptStackWith push chr fuel newStacks stack := by
  cases stack with
  | nil => exact steady_const _
  | cons p rest =>
    apply (steady_const _).bind
    intro found
    split
    · exact steady_advance _ _
    · exact steady_const _

theorem steady_accept (grammarStacks : Stacks) (chr : Nat) :
    Steady fun fuel => G.acceptWith push fuel grammarStacks chr :=
  Steady.foldlM (fun b a => steady_acceptStack chr b a) _ _

theorem acceptStack_class (push : Stacks → Stack → Stacks) (h : isClass (head (G.from p)))
    (chr fuel : Nat) (newStacks : Stacks) (rest : Stack) :
    (InClass (G.from p) chr ∧ G.acceptStackWith push chr fuel newStacks (p :: rest) =
        G.advanceWith push fuel newStacks (G.afterChar p rest)) ∨
      (¬ InClass (G.from p) chr ∧
        G.acceptStackWith push chr fuel newStacks (p :: rest) = some newStacks) := by
  obtain ⟨found, hmatch, hfound⟩ := matchChar_eq h chr
  rw [acceptStackWith, hmatch]
  by_cases hc : InClass (G.from p) chr
  · refine .inl ⟨hc, ?_⟩
    rw [hfound.2 hc]
    rfl
  · refine .inr ⟨hc, ?_⟩
    rw [Bool.eq_false_iff.2 (mt hfound.1 hc)]
    rfl

/-- Accepting a code point on one stack adds the stacks it moves to. -/
theorem mem_acceptStack (hpush : Adds push) (hs : G.Ready stack)
    (h : Yields (fun fuel => G.acceptStackWith push chr fuel newStacks stack) out) (s : Stack) :
    s ∈ out ↔ s ∈ newStacks ∨ G.Moves chr stack s := by
  cases hs with
  | empty =>
    rw [← Option.some.inj (returns_const.1 h)]
    constructor
    · exact .inl
    · rintro (h | h)
      · exact h
      · cases h
  | @char p rest hc hs =>
    obtain ⟨fuel, h⟩ := h
    rcases acceptStack_class push hc chr fuel newStacks rest with ⟨hin, heq⟩ | ⟨hin, heq⟩
    · rw [mem_advance hpush ⟨fuel, heq.symm.trans h⟩]
      apply or_congr_right
      constructor
      · exact .char hc hin
      · intro h
        cases h with
        | char _ _ hexp => exact hexp
    · rw [← Option.some.inj (heq.symm.trans h)]
      constructor
      · exact .inl
      · rintro (h | h)
        · exact h
        · cases h with
          | char _ hin' => exact absurd hin' hin

/-- Accepting a code point on one stack returns where the expansion behind it ends. -/
theorem acceptStack_returns (hs : G.Ready stack) (hh : ∀ p rest, stack = p :: rest →
      InClass (G.from p) chr → Cfg.Halts G.alts (G.symbolsOf (G.afterChar p rest)))
    (newStacks : Stacks) :
    ∃ out, Yields (fun fuel => G.acceptStackWith push chr fuel newStacks stack) out := by
  cases hs with
  | empty => exact ⟨newStacks, 0, rfl⟩
  | @char p rest hc hs =>
    by_cases hin : InClass (G.from p) chr
    · obtain ⟨out, fuel, hout⟩ :=
        advance_returns push (hs.afterChar hc) (hh p rest rfl hin) newStacks
      rcases acceptStack_class push hc chr fuel newStacks rest with ⟨-, heq⟩ | ⟨hnin, -⟩
      · exact ⟨out, fuel, heq.trans hout⟩
      · exact absurd hin hnin
    · rcases acceptStack_class push hc chr 0 newStacks rest with ⟨hin', -⟩ | ⟨-, heq⟩
      · exact absurd hin' hin
      · exact ⟨newStacks, 0, heq⟩

theorem mem_accept (hpush : Adds push) (hs : ∀ stack ∈ grammarStacks, G.Ready stack)
    (h : Yields (fun fuel => G.acceptWith push fuel grammarStacks chr) out) (s : Stack) :
    s ∈ out ↔ ∃ stack ∈ grammarStacks, G.Moves chr stack s := by
  have hfold := mem_foldlM (R := fun stack s => G.Moves chr stack s)
    (fun b a => by exact steady_acceptStack chr b a)
    (fun stack hstack b c hc s => mem_acceptStack hpush (hs stack hstack) hc s) h s
  simpa using hfold

theorem accept_returns (hs : ∀ stack ∈ grammarStacks, G.Ready stack)
    (hh : ∀ p rest, p :: rest ∈ grammarStacks → InClass (G.from p) chr →
      Cfg.Halts G.alts (G.symbolsOf (G.afterChar p rest))) :
    ∃ out, Yields (fun fuel => G.acceptWith push fuel grammarStacks chr) out := by
  apply exists_foldlM fun b a => steady_acceptStack chr b a
  intro stack hstack b
  apply acceptStack_returns (hs stack hstack)
  rintro p rest rfl hin
  exact hh p rest hstack hin

theorem ready_accept (hpush : Adds push) (hs : ∀ stack ∈ grammarStacks, G.Ready stack)
    (h : Yields (fun fuel => G.acceptWith push fuel grammarStacks chr) out) :
    ∀ stack ∈ out, G.Ready stack := by
  intro stack hstack
  obtain ⟨stack₀, hstack₀, hmoves⟩ := (mem_accept hpush hs h stack).1 hstack
  exact hmoves.ready (hs _ hstack₀)

theorem steady_acceptAll (grammarStacks : Stacks) (chrs : List Nat) :
    Steady (G.acceptAllWith push grammarStacks chrs) :=
  Steady.foldlM (fun b a => steady_accept b a) _ _

theorem returns_acceptAll_cons : Yields (G.acceptAllWith push grammarStacks (chr :: chrs)) out ↔
    ∃ mid, Yields (fun fuel => G.acceptWith push fuel grammarStacks chr) mid ∧
      Yields (G.acceptAllWith push mid chrs) out :=
  returns_foldlM_cons fun b a => steady_accept b a

theorem returns_acceptAll_nil : Yields (G.acceptAllWith push grammarStacks []) out ↔
    out = grammarStacks :=
  returns_foldlM_nil

/-- The stacks behind several code points are those the stacks before them move to. -/
theorem mem_acceptAll (hpush : Adds push) (hs : ∀ stack ∈ grammarStacks, G.Ready stack)
    (h : Yields (G.acceptAllWith push grammarStacks chrs) out) (s : Stack) :
    s ∈ out ↔ ∃ stack ∈ grammarStacks, G.MovesAll stack chrs s := by
  induction chrs generalizing grammarStacks with
  | nil =>
    rw [returns_acceptAll_nil.1 h]
    simp [MovesAll]
  | cons chr chrs ih =>
    obtain ⟨mid, hmid, hout⟩ := returns_acceptAll_cons.1 h
    rw [ih (ready_accept hpush hs hmid) hout]
    constructor
    · rintro ⟨stack', hstack', hall⟩
      obtain ⟨stack, hstack, hmoves⟩ := (mem_accept hpush hs hmid stack').1 hstack'
      exact ⟨stack, hstack, stack', hmoves, hall⟩
    · rintro ⟨stack, hstack, stack', hmoves, hall⟩
      exact ⟨stack', (mem_accept hpush hs hmid stack').2 ⟨stack, hstack, hmoves⟩, hall⟩

end Accept

/-- Every expansion of a stack of the rule set returns. -/
def Terminates (G : Rules) : Prop :=
  ∀ stack, G.ValidStack stack → ∃ out, Yields (fun fuel => G.advanceStack fuel [] stack) out

theorem Terminates.halts (h : G.Terminates) (hs : G.ValidStack stack) :
    Cfg.Halts G.alts (G.symbolsOf stack) := by
  obtain ⟨out, hout⟩ := h stack hs
  exact halts_of_advance hout

/-- An empty stack derives the empty word only, a stack with a class at its top derives what it
derives behind the class. -/
theorem derives_ready (hs : G.Ready stack) : Cfg.Derives G.alts (G.symbolsOf stack) [] ↔
    stack = [] := by
  cases hs with
  | empty => simp [Cfg.derives_nil]
  | char h hs =>
    rw [symbolsOf_class h]
    simp [Cfg.not_derives_char]

/-- What the stacks of a run have in common: whatever is read next, what is behind it halts. -/
structure Settled (G : Rules) (P : Stack → Prop) : Prop where
  ready : ∀ {stack}, P stack → G.Ready stack
  moves : ∀ {stack stack' chr}, P stack → G.Moves chr stack stack' → P stack'
  halts : ∀ {p rest}, P (p :: rest) → isClass (head (G.from p)) →
    Cfg.Halts G.alts (G.symbolsOf (G.afterChar p rest))

theorem Terminates.settled (hG : G.Terminates) : G.Settled G.Ready where
  ready hs := hs
  moves hs hmoves := hmoves.ready hs
  halts hs _ := by
    cases hs with
    | char h hs => exact hG.halts (hs.afterChar h)

theorem derives_moves {P : Stack → Prop} (hP : G.Settled P) (hs : P stack) :
    Cfg.Derives G.alts (G.symbolsOf stack) (chr :: w) ↔
      ∃ stack', G.Moves chr stack stack' ∧ Cfg.Derives G.alts (G.symbolsOf stack') w := by
  cases hP.ready hs with
  | empty =>
    rw [symbolsOf_nil, Cfg.derives_nil]
    constructor
    · intro h
      cases h
    · rintro ⟨stack', h, -⟩
      cases h
  | char h hvalid =>
    rw [symbolsOf_class h, Cfg.derives_char_cons,
      derives_expands (hvalid.afterChar h) (hP.halts hs h)]
    constructor
    · rintro ⟨hin, stack', hexp, hw⟩
      exact ⟨stack', .char h hin hexp, hw⟩
    · rintro ⟨stack', hmoves, hw⟩
      cases hmoves with
      | char _ hin hexp => exact ⟨hin, stack', hexp, hw⟩

/-- The words of a stack are those that lead it to the empty stack. -/
theorem derives_movesAll {P : Stack → Prop} (hP : G.Settled P) (hs : P stack) :
    Cfg.Derives G.alts (G.symbolsOf stack) w ↔ G.MovesAll stack w [] := by
  induction w generalizing stack with
  | nil =>
    rw [derives_ready (hP.ready hs)]
    exact eq_comm
  | cons chr w ih =>
    rw [derives_moves hP hs]
    apply exists_congr
    intro stack'
    apply and_congr_right
    intro hmoves
    exact ih (hP.moves hs hmoves)

end Rules
end ActQuant.Grammar
