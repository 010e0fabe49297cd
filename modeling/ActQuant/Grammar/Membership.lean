import ActQuant.Grammar.AcceptSpec

namespace ActQuant.Grammar
open Lib

/-! The stacks of a running grammar decide membership in its language. -/

namespace Rules
variable {G : Rules}

section Init
variable {push : Stacks → Stack → Stacks}

/-- The stack an alternate of the start rule begins with. -/
def startStack (G : Rules) (start sub : Nat) : Stack := G.pushNext ⟨start, sub⟩ []

theorem symbolsOf_startStack :
    G.symbolsOf (G.startStack start sub) = symbols (G.from ⟨start, sub⟩) := by
  rw [startStack, symbolsOf_pushNext, symbolsOf_nil, List.append_nil]

theorem valid_startStack (hstart : start < G.rules.length)
    (hsub : sub ∈ alternates (G.rule start)) : G.ValidStack (G.startStack start sub) :=
  validStack_nil.pushNext (altStart_head ((mem_alternates_rule hstart).1 hsub))

theorem mem_init (hpush : Adds push) (h : Yields (G.initWith push start) out) (s : Stack) :
    s ∈ out ↔ ∃ sub ∈ alternates (G.rule start), G.Expands (G.startStack start sub) s := by
  have hfold := mem_foldlM (R := fun sub s => G.Expands (G.startStack start sub) s)
    (fun b sub => by exact steady_advance b (G.startStack start sub))
    (fun sub _ b c hc s => mem_advance hpush hc s) h s
  simpa using hfold

theorem init_returns (hstart : start < G.rules.length)
    (hh : ∀ ss ∈ G.alts start, Cfg.Halts G.alts ss) : ∃ out, Yields (G.initWith push start) out := by
  apply exists_foldlM fun b sub => steady_advance b (G.startStack start sub)
  intro sub hsub b
  apply advance_returns push (valid_startStack hstart hsub)
  rw [symbolsOf_startStack]
  exact hh _ ((mem_alts_iff hstart).2 ⟨sub, hsub, rfl⟩)

theorem ready_init (hpush : Adds push) (hstart : start < G.rules.length)
    (h : Yields (G.initWith push start) out) : ∀ stack ∈ out, G.Ready stack := by
  intro stack hstack
  obtain ⟨sub, hsub, hexp⟩ := (mem_init hpush h stack).1 hstack
  exact hexp.ready (valid_startStack hstart hsub)

end Init

theorem Terminates.init_returns (hG : G.Terminates) (push : Stacks → Stack → Stacks)
    (hstart : start < G.rules.length) :
    ∃ out, Yields (G.initWith push start) out := by
  apply Rules.init_returns hstart
  intro ss hss
  obtain ⟨sub, hsub, rfl⟩ := (mem_alts_iff hstart).1 hss
  rw [← symbolsOf_startStack]
  exact hG.halts (valid_startStack hstart hsub)

theorem Terminates.accept_returns (hG : G.Terminates) (push : Stacks → Stack → Stacks)
    (hs : ∀ stack ∈ grammarStacks, G.Ready stack) (chr : Nat) :
    ∃ out, Yields (fun fuel => G.acceptWith push fuel grammarStacks chr) out := by
  apply Rules.accept_returns hs
  intro p rest hmem _
  have hready := hs _ hmem
  cases hready with
  | char h hs => exact hG.halts (hs.afterChar h)

theorem Terminates.acceptAll_returns (hG : G.Terminates) (hpush : Adds push)
    (hs : ∀ stack ∈ grammarStacks, G.Ready stack) (chrs : List Nat) :
    ∃ out, Yields (G.acceptAllWith push grammarStacks chrs) out := by
  induction chrs generalizing grammarStacks with
  | nil => exact ⟨grammarStacks, returns_acceptAll_nil.2 rfl⟩
  | cons chr chrs ih =>
    obtain ⟨mid, hmid⟩ := hG.accept_returns push hs chr
    obtain ⟨out, hout⟩ := ih (ready_accept hpush hs hmid)
    exact ⟨out, returns_acceptAll_cons.2 ⟨mid, hmid, hout⟩⟩

/-- The words of the start rule are those of the initial stacks, where these are stacks of a run. -/
theorem derives_init_of {P : Stack → Prop} (hP : G.Settled P)
    (hhalts : ∀ ss ∈ G.alts start, Cfg.Halts G.alts ss) (hpush : Adds push)
    (hstart : start < G.rules.length) (h : Yields (G.initWith push start) initial)
    (hinit : ∀ stack ∈ initial, P stack) :
    Cfg.Derives G.alts [.ref start] w ↔ ∃ stack ∈ initial, G.MovesAll stack w [] := by
  have hderives (sub : Nat) (hsub : sub ∈ alternates (G.rule start)) :
      Cfg.Derives G.alts (symbols (G.from ⟨start, sub⟩)) w ↔
        ∃ stack, G.Expands (G.startStack start sub) stack ∧
          Cfg.Derives G.alts (G.symbolsOf stack) w := by
    have hhalts := hhalts _ ((mem_alts_iff hstart).2 ⟨sub, hsub, rfl⟩)
    rw [← symbolsOf_startStack] at hhalts ⊢
    exact derives_expands (valid_startStack hstart hsub) hhalts
  rw [Cfg.derives_ref]
  simp only [List.append_nil]
  constructor
  · rintro ⟨alt, halt, hw⟩
    obtain ⟨sub, hsub, rfl⟩ := (mem_alts_iff hstart).1 halt
    obtain ⟨stack, hexp, hw⟩ := (hderives sub hsub).1 hw
    have hmem := (mem_init hpush h stack).2 ⟨sub, hsub, hexp⟩
    exact ⟨stack, hmem, (derives_movesAll hP (hinit stack hmem)).1 hw⟩
  · rintro ⟨stack, hmem, hall⟩
    have hw := (derives_movesAll hP (hinit stack hmem)).2 hall
    obtain ⟨sub, hsub, hexp⟩ := (mem_init hpush h stack).1 hmem
    exact ⟨_, (mem_alts_iff hstart).2 ⟨sub, hsub, rfl⟩, (hderives sub hsub).2 ⟨stack, hexp, hw⟩⟩

theorem derives_init (hG : G.Terminates) (hpush : Adds push) (hstart : start < G.rules.length)
    (h : Yields (G.initWith push start) initial) :
    Cfg.Derives G.alts [.ref start] w ↔ ∃ stack ∈ initial, G.MovesAll stack w [] := by
  refine derives_init_of hG.settled ?_ hpush hstart h (ready_init hpush hstart h)
  intro ss hss
  obtain ⟨sub, hsub, rfl⟩ := (mem_alts_iff hstart).1 hss
  rw [← symbolsOf_startStack]
  exact hG.halts (valid_startStack hstart hsub)

/-- Moving over two sequences of code points is moving over one and then the other. -/
theorem movesAll_append : G.MovesAll stack (w ++ w') stack' ↔
    ∃ mid, G.MovesAll stack w mid ∧ G.MovesAll mid w' stack' := by
  induction w generalizing stack with
  | nil => simp [MovesAll]
  | cons chr w ih =>
    simp only [List.cons_append, MovesAll, ih]
    constructor
    · rintro ⟨next, hmoves, mid, hmid, hall⟩
      exact ⟨mid, ⟨next, hmoves, hmid⟩, hall⟩
    · rintro ⟨mid, ⟨next, hmoves, hmid⟩, hall⟩
      exact ⟨next, hmoves, mid, hmid, hall⟩

theorem MovesAll.ready (h : G.MovesAll stack w stack') (hs : G.Ready stack) : G.Ready stack' := by
  induction w generalizing stack with
  | nil =>
    rw [h]
    exact hs
  | cons chr w ih =>
    obtain ⟨mid, hmid, hmoves⟩ := h
    exact ih hmoves (hmid.ready hs)

theorem ready_singleton (h : G.Ready stack) : ∀ s ∈ [stack], G.Ready s := by
  intro s hs
  rw [List.mem_singleton.1 hs]
  exact h

/-- The run over a sequence of code points, whichever way stacks are added. -/
theorem run_spec (hG : G.Terminates) (hpush : Adds push) (hstart : start < G.rules.length)
    (w : List Nat) : ∃ initial grammarStacks, Yields (G.initWith push start) initial ∧
      Yields (G.acceptAllWith push initial w) grammarStacks ∧
      (∀ stack ∈ grammarStacks, G.Ready stack) ∧
      ∀ s, s ∈ grammarStacks ↔ ∃ sub ∈ alternates (G.rule start), ∃ stack,
        G.Expands (G.startStack start sub) stack ∧ G.MovesAll stack w s := by
  obtain ⟨initial, hinit⟩ := hG.init_returns push hstart
  have hready := ready_init hpush hstart hinit
  obtain ⟨grammarStacks, hall⟩ := hG.acceptAll_returns hpush hready w
  have hmem := mem_acceptAll hpush hready hall
  refine ⟨initial, grammarStacks, hinit, hall, ?_, ?_⟩
  · intro s hs
    obtain ⟨stack, hstack, hmoves⟩ := (hmem s).1 hs
    exact hmoves.ready (hready stack hstack)
  · intro s
    rw [hmem]
    constructor
    · rintro ⟨stack, hstack, hmoves⟩
      obtain ⟨sub, hsub, hexp⟩ := (mem_init hpush hinit stack).1 hstack
      exact ⟨sub, hsub, stack, hexp, hmoves⟩
    · rintro ⟨sub, hsub, stack, hexp, hmoves⟩
      exact ⟨stack, (mem_init hpush hinit stack).2 ⟨sub, hsub, hexp⟩, hmoves⟩

/-- After a sequence of code points the empty stack is there where the sequence is a word of the
start rule, and a stack that some continuation leads to the empty stack where it is a beginning
of one; the stacks are the same ones when duplicates are kept. -/
theorem accept_language (G : Rules) (hG : G.Terminates) (start : Nat)
    (hstart : start < G.rules.length) (w : List Nat) :
    ∃ initial grammarStacks, Yields (G.init start) initial ∧
      Yields (G.acceptAll initial w) grammarStacks ∧
      ([] ∈ grammarStacks ↔ Cfg.Derives G.alts [.ref start] w) ∧
      ((∃ stack ∈ grammarStacks, ∃ w' out, Yields (G.acceptAll [stack] w') out ∧ [] ∈ out) ↔
        ∃ w', Cfg.Derives G.alts [.ref start] (w ++ w')) ∧
      ∃ initial' withDuplicates, Yields (G.initWith appendStack start) initial' ∧
        Yields (G.acceptAllWith appendStack initial' w) withDuplicates ∧
        ∀ s, s ∈ withDuplicates ↔ s ∈ grammarStacks := by
  obtain ⟨initial, grammarStacks, hinit, hall, hready, hmem⟩ :=
    run_spec hG adds_insertStack hstart w
  obtain ⟨initial', withDuplicates, hinit', hall', -, hmem'⟩ :=
    run_spec hG adds_appendStack hstart w
  have hderives (w : List Nat) := derives_init (w := w) hG adds_insertStack hstart hinit
  have hmoves := mem_acceptAll adds_insertStack (ready_init adds_insertStack hstart hinit) hall
  refine ⟨initial, grammarStacks, hinit, hall, ?_, ?_, initial', withDuplicates, hinit', hall',
    fun s => (hmem' s).trans (hmem s).symm⟩
  · rw [hmoves, hderives]
  · constructor
    · rintro ⟨stack, hstack, w', out, hout, hempty⟩
      have hone := ready_singleton (hready stack hstack)
      obtain ⟨s, hs, hrest⟩ := (mem_acceptAll adds_insertStack hone hout []).1 hempty
      rw [List.mem_singleton.1 hs] at hrest
      obtain ⟨first, hfirst, hbefore⟩ := (hmoves stack).1 hstack
      exact ⟨w', (hderives _).2 ⟨first, hfirst, movesAll_append.2 ⟨stack, hbefore, hrest⟩⟩⟩
    · rintro ⟨w', hw'⟩
      obtain ⟨first, hfirst, hall⟩ := (hderives _).1 hw'
      obtain ⟨stack, hbefore, hrest⟩ := movesAll_append.1 hall
      have hstack := (hmoves stack).2 ⟨first, hfirst, hbefore⟩
      have hone := ready_singleton (hready stack hstack)
      obtain ⟨out, hout⟩ := hG.acceptAll_returns adds_insertStack hone w'
      refine ⟨stack, hstack, w', out, hout, ?_⟩
      exact (mem_acceptAll adds_insertStack hone hout []).2 ⟨stack, .head _, hrest⟩

/-- `root ::= "(" root ")" |`. -/
def nested : List (List Element) :=
  [[⟨.CHAR, 40⟩, ⟨.RULE_REF, 0⟩, ⟨.CHAR, 41⟩, ⟨.ALT, 0⟩, ⟨.END, 0⟩]]

theorem nested_wf : ∀ rule ∈ nested, RuleWF rule := by decide

theorem nested_refs :
    ∀ rule ∈ nested, ∀ e ∈ rule, e.type = .RULE_REF → e.value < nested.length := by decide

def nestedRules : Rules := ⟨nested, nested_wf, nested_refs⟩

theorem nestedRules_terminates : nestedRules.Terminates := by
  have hcorner : ∀ n n', ¬ Cfg.LeftCorner nestedRules.alts n n' := by
    rintro n n' ⟨alt, halt, before, after, rfl, hbefore⟩
    have hn : n < 1 := halt.1
    obtain rfl : n = 0 := by omega
    obtain ⟨sub, hsub, hss⟩ := (mem_alts_iff hn).1 halt
    have hsubs : alternates (nestedRules.rule 0) = [0, 4] := by decide
    rw [hsubs] at hsub
    cases hsub with
    | head =>
      cases before with
      | nil => cases hss
      | cons s before =>
        obtain ⟨rfl, -⟩ := List.cons.inj hss
        exact Cfg.not_derives_char hbefore
    | tail _ hsub =>
      rw [List.mem_singleton.1 hsub] at hss
      exact List.append_ne_nil_of_right_ne_nil _ (by simp) hss
  intro stack hs
  have hhalts := Cfg.halts_of_wellFounded (P := nestedRules.alts) (Q := Set.univ)
    (fun _ _ _ _ => trivial) ⟨fun n => ⟨n, fun n' h => absurd h.1 (hcorner n n')⟩⟩
  exact advance_returns _ hs (hhalts _ trivial) []

theorem nested_accept_language : ∃ initial grammarStacks,
    Yields (nestedRules.init 0) initial ∧
      Yields (nestedRules.acceptAll initial [40]) grammarStacks ∧
      ([] ∈ grammarStacks ↔ Cfg.Derives nestedRules.alts [.ref 0] [40]) ∧
      ((∃ stack ∈ grammarStacks, ∃ w' out,
        Yields (nestedRules.acceptAll [stack] w') out ∧ [] ∈ out) ↔
        ∃ w', Cfg.Derives nestedRules.alts [.ref 0] ([40] ++ w')) ∧
      ∃ initial' withDuplicates, Yields (nestedRules.initWith appendStack 0) initial' ∧
        Yields (nestedRules.acceptAllWith appendStack initial' [40]) withDuplicates ∧
        ∀ s, s ∈ withDuplicates ↔ s ∈ grammarStacks :=
  accept_language nestedRules nestedRules_terminates 0 (by decide) [40]

end Rules
end ActQuant.Grammar
