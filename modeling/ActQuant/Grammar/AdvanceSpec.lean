import ActQuant.Grammar.Stacks
import ActQuant.Lib.Run

namespace ActQuant.Grammar
open Lib

/-! What expanding a stack returns, and when it returns. -/

/-- A way to add a stack to a list of stacks. -/
def Adds (push : Stacks → Stack → Stacks) : Prop :=
  ∀ newStacks stack s, s ∈ push newStacks stack ↔ s ∈ newStacks ∨ s = stack

theorem adds_insertStack : Adds insertStack := by
  intro newStacks stack s
  rw [insertStack]
  split
  case isTrue h =>
    constructor
    · exact .inl
    · rintro (hs | rfl)
      · exact hs
      · exact h
  case isFalse => simp

theorem adds_appendStack : Adds appendStack := by
  intro newStacks stack s
  simp [appendStack]

/-- The scan stops behind every `ALT`. -/
theorem mem_scanAlternates (off : Nat) (hend : ∀ e ∈ es.dropLast, e.type ≠ .END)
    (hlast : ∀ e, es.getLast? = some e → e.type = .END) : k ∈ scanAlternates off es ↔
      ∃ before e after, es = before ++ e :: after ∧ e.type = .ALT ∧
        k = off + before.length + 1 := by
  induction es generalizing off with
  | nil => simp [scanAlternates]
  | cons e es ih =>
    cases es with
    | nil =>
      have he : e.type = .END := hlast e rfl
      have hnil : scanAlternates off [e] = [] := by simp [scanAlternates, he]
      rw [hnil]
      constructor
      · intro h
        cases h
      · rintro ⟨before, e', after, hes, he', -⟩
        have hmem : e' ∈ [e] := by
          rw [hes]
          simp
        rw [List.mem_singleton.1 hmem, he] at he'
        cases he'
    | cons e' es =>
      have hne : e.type ≠ .END := hend e (.head _)
      have ih := ih (off + 1) (fun a ha => hend a (.tail _ ha))
        (fun a ha => hlast a (by rwa [List.getLast?_cons_cons]))
      have htail : (k ∈ scanAlternates (off + 1) (e' :: es)) ↔ ∃ before a after,
          e :: e' :: es = e :: before ++ a :: after ∧ a.type = .ALT ∧
            k = off + (e :: before).length + 1 := by
        rw [ih]
        simp only [List.cons_append, List.cons.injEq, true_and, List.length_cons]
        constructor
        · rintro ⟨before, a, after, h, ha, rfl⟩
          exact ⟨before, a, after, h, ha, by omega⟩
        · rintro ⟨before, a, after, h, ha, rfl⟩
          exact ⟨before, a, after, h, ha, by omega⟩
      have hrest : (∃ before a after, e :: e' :: es = e :: before ++ a :: after ∧ a.type = .ALT ∧
          k = off + (e :: before).length + 1) →
          ∃ before a after, e :: e' :: es = before ++ a :: after ∧ a.type = .ALT ∧
            k = off + before.length + 1 := fun ⟨before, h⟩ => ⟨e :: before, h⟩
      have hsplit : (∃ before a after, e :: e' :: es = before ++ a :: after ∧ a.type = .ALT ∧
          k = off + before.length + 1) → (e.type = .ALT ∧ k = off + 1) ∨
          ∃ before a after, e :: e' :: es = e :: before ++ a :: after ∧ a.type = .ALT ∧
            k = off + (e :: before).length + 1 := by
        rintro ⟨before, a, after, h, ha, hk⟩
        cases before with
        | nil =>
          obtain ⟨rfl, rfl⟩ := List.cons.inj h
          exact .inl ⟨ha, hk⟩
        | cons b before =>
          obtain ⟨rfl, hes⟩ := List.cons.inj h
          exact .inr ⟨before, a, after, congrArg _ hes, ha, hk⟩
      by_cases halt : e.type = .ALT
      · have hscan : scanAlternates off (e :: e' :: es) =
            (off + 1) :: scanAlternates (off + 1) (e' :: es) := by
          rw [scanAlternates, halt]
        rw [hscan, List.mem_cons, htail]
        constructor
        · rintro (rfl | h)
          · exact ⟨[], e, e' :: es, rfl, halt, rfl⟩
          · exact hrest h
        · intro h
          exact (hsplit h).imp And.right id
      · have hscan : scanAlternates off (e :: e' :: es) =
            scanAlternates (off + 1) (e' :: es) := by
          rw [scanAlternates]
          cases ht : e.type <;> simp_all
        rw [hscan, htail]
        constructor
        · exact hrest
        · intro h
          exact (hsplit h).resolve_left fun h => halt h.1

/-- The beginning of an alternate of a rule. -/
def AltStart (rule : List Element) (k : Nat) : Prop :=
  ∃ before after, rule = before ++ after ∧
    (before = [] ∨ ∃ e, before.getLast? = some e ∧ e.type = .ALT) ∧ k = before.length

theorem mem_alternates (h : RuleWF rule) : k ∈ alternates rule ↔ AltStart rule k := by
  have hscan := mem_scanAlternates (k := k) 0 h.2.1 fun e he => by
    rw [h.1] at he
    rw [← Option.some.inj he]
  rw [alternates, List.mem_cons, hscan]
  constructor
  · rintro (rfl | ⟨before, e, after, rfl, he, rfl⟩)
    · exact ⟨[], rule, rfl, .inl rfl, rfl⟩
    · exact ⟨before ++ [e], after, by simp, .inr ⟨e, by simp, he⟩, by simp⟩
  · rintro ⟨before, after, rfl, hbefore, rfl⟩
    rcases List.eq_nil_or_concat before with rfl | ⟨before, e, rfl⟩
    · exact .inl rfl
    · rcases hbefore with hnil | ⟨e', he', halt⟩
      · simp at hnil
      · rw [List.concat_eq_append, List.getLast?_concat, Option.some.injEq] at he'
        subst he'
        exact .inr ⟨before, e, after, by simp, halt, by simp⟩

namespace Rules
variable {G : Rules}

theorem mem_alternates_rule (hid : n < G.rules.length) :
    k ∈ alternates (G.rule n) ↔ AltStart (G.rule n) k :=
  mem_alternates (G.wf _ (G.rule_mem hid))

/-- The symbols from the beginning of an alternate on are an alternate. -/
theorem mem_alts_iff (hid : n < G.rules.length) : ss ∈ G.alts n ↔
    ∃ sub ∈ alternates (G.rule n), ss = symbols (G.from ⟨n, sub⟩) := by
  constructor
  · rintro ⟨-, before, after, hrule, hbefore, rfl⟩
    refine ⟨before.length, (mem_alternates_rule hid).2 ⟨before, after, hrule, hbefore, rfl⟩, ?_⟩
    rw [Rules.from, hrule, List.drop_left]
  · rintro ⟨sub, hsub, rfl⟩
    obtain ⟨before, after, hrule, hbefore, rfl⟩ := (mem_alternates_rule hid).1 hsub
    refine ⟨hid, before, after, hrule, hbefore, ?_⟩
    rw [Rules.from, hrule, List.drop_left]

/-- No modifier stands at the beginning of an alternate. -/
theorem altStart_head (h : AltStart (G.rule n) k) :
    isModifier (head (G.from ⟨n, k⟩)) = false := by
  obtain ⟨before, after, hrule, hbefore, rfl⟩ := h
  have hchain := G.chain_rule n
  rw [Rules.from, hrule, List.drop_left]
  rw [hrule] at hchain
  rcases hbefore with rfl | ⟨e, he, halt⟩
  · exact not_modifier_of_follows (follows_head hchain) rfl
  · obtain ⟨before, rfl⟩ := List.getLast?_eq_some_iff.1 he
    have hrest : (e :: after).IsChain Follows :=
      hchain.suffix ⟨⟨.ALT, 0⟩ :: before, by simp⟩
    exact not_modifier_of_follows (follows_head hrest) (by rw [isCharElement, halt])

/-- No modifier stands behind a reference. -/
theorem ref_head (h : (head (G.from p)).type = .RULE_REF) :
    isModifier (head (G.from (p.add 1))) = false := by
  have hchain := G.chain_from p
  rw [G.from_add]
  cases hes : G.from p with
  | nil => rfl
  | cons e es =>
    rw [hes] at hchain h
    rw [head_cons] at h
    exact not_modifier_of_follows (follows_head hchain) (by rw [isCharElement, h])

theorem symbolsOf_pushNext :
    G.symbolsOf (G.pushNext p stack) = symbols (G.from p) ++ G.symbolsOf stack := by
  rw [pushNext]
  split
  case isTrue h =>
    rw [symbols_end h]
    rfl
  case isFalse => rfl

/-- A stack whose elements a stack may stand on. -/
def ValidStack (G : Rules) (stack : Stack) : Prop := ∀ p ∈ stack, G.Valid p

theorem validStack_nil : G.ValidStack [] := fun _ h => nomatch h

theorem ValidStack.tail (h : G.ValidStack (p :: rest)) : G.ValidStack rest :=
  fun q hq => h q (.tail _ hq)

theorem ValidStack.pushNext (h : G.ValidStack stack)
    (hp : isModifier (head (G.from p)) = false) : G.ValidStack (G.pushNext p stack) := by
  rw [Rules.pushNext]
  split
  case isTrue => exact h
  case isFalse hend =>
    intro q hq
    cases hq with
    | head =>
      rcases element_cases (head (G.from p)) with h' | h' | h'
      · exact absurd h' hend
      · rw [hp] at h'
        cases h'
      · exact h'
    | tail _ hq => exact h q hq

/-- The stack an alternate of the rule referred to at the top of a stack leads to. -/
def expandRef (G : Rules) (p : Pos) (rest : Stack) (sub : Nat) : Stack :=
  G.pushNext ⟨(head (G.from p)).value, sub⟩ (G.pushNext (p.add 1) rest)

theorem from_ref (h : (head (G.from p)).type = .RULE_REF) :
    ∃ es, G.from p = head (G.from p) :: es ∧ (head (G.from p)).value < G.rules.length := by
  cases hes : G.from p with
  | nil =>
    rw [hes] at h
    cases h
  | cons e es =>
    refine ⟨es, rfl, G.rule_of_ref (p := p) ?_ ?_⟩
    · rw [hes]
      exact .head _
    · rwa [hes] at h

theorem symbolsOf_ref (h : (head (G.from p)).type = .RULE_REF) :
    G.symbolsOf (p :: rest) = .ref (head (G.from p)).value :: G.symbolsOf (G.pushNext (p.add 1) rest)
    := by
  obtain ⟨es, hes, -⟩ := from_ref h
  rw [symbolsOf_pushNext, symbolsOf_cons, G.from_add, hes]
  rw [symbols_ref h]
  rfl

theorem symbolsOf_expandRef : G.symbolsOf (G.expandRef p rest sub) =
    symbols (G.from ⟨(head (G.from p)).value, sub⟩) ++ G.symbolsOf (G.pushNext (p.add 1) rest) :=
  symbolsOf_pushNext

theorem ValidStack.expandRef (hs : G.ValidStack (p :: rest))
    (h : (head (G.from p)).type = .RULE_REF)
    (hsub : sub ∈ alternates (G.rule (head (G.from p)).value)) :
    G.ValidStack (G.expandRef p rest sub) := by
  obtain ⟨es, -, hid⟩ := from_ref h
  apply ValidStack.pushNext
  · exact hs.tail.pushNext (ref_head h)
  · exact altStart_head ((mem_alternates_rule hid).1 hsub)

/-- The stacks an expansion of a stack comes to. -/
inductive Expands (G : Rules) : Stack → Stack → Prop where
  | empty : Expands G [] []
  | char (h : isClass (head (G.from p))) : Expands G (p :: rest) (p :: rest)
  | ref (h : (head (G.from p)).type = .RULE_REF)
      (hsub : sub ∈ alternates (G.rule (head (G.from p)).value))
      (hexp : Expands G (G.expandRef p rest sub) stack) : Expands G (p :: rest) stack

section Advance
variable {push : Stacks → Stack → Stacks}

theorem advance_ref (h : (head (G.from p)).type = .RULE_REF) :
    G.advanceWith push (fuel + 1) newStacks (p :: rest) =
      (alternates (G.rule (head (G.from p)).value)).foldlM
        (fun newStacks sub => G.advanceWith push fuel newStacks (G.expandRef p rest sub))
        newStacks := by
  rw [advanceWith]
  simp only [h]
  rfl

theorem advance_class (h : isClass (head (G.from p))) :
    G.advanceWith push (fuel + 1) newStacks (p :: rest) = some (push newStacks (p :: rest)) := by
  rw [isClass, decide_eq_true_iff] at h
  rw [advanceWith]
  rcases h with h | h | h <;> simp only [h]

theorem advance_none (hc : ¬ isClass (head (G.from p))) (h : (head (G.from p)).type ≠ .RULE_REF) :
    G.advanceWith push (fuel + 1) newStacks (p :: rest) = none := by
  rw [isClass, decide_eq_true_iff] at hc
  rw [advanceWith]
  cases ht : (head (G.from p)).type <;> simp_all

theorem steady_advance (newStacks : Stacks) (stack : Stack) :
    Steady fun fuel => G.advanceWith push fuel newStacks stack := by
  apply steady_of_succ
  intro fuel out h
  induction fuel generalizing newStacks stack out with
  | zero => cases h
  | succ fuel ih =>
    cases stack with
    | nil => exact h
    | cons p rest =>
      by_cases href : (head (G.from p)).type = .RULE_REF
      · rw [advance_ref href] at h ⊢
        exact foldlM_mono (fun b sub c hc => ih _ _ _ hc) h
      · by_cases hc : isClass (head (G.from p))
        · rw [advance_class hc] at h ⊢
          exact h
        · rw [advance_none hc href] at h
          cases h

theorem returns_advance_ref (h : (head (G.from p)).type = .RULE_REF) :
    Yields (fun fuel => G.advanceWith push fuel newStacks (p :: rest)) out ↔
      Yields (fun fuel => (alternates (G.rule (head (G.from p)).value)).foldlM
        (fun newStacks sub => G.advanceWith push fuel newStacks (G.expandRef p rest sub))
        newStacks) out :=
  returns_succ rfl fun _ => advance_ref h

/-- Expanding a stack adds the stacks it expands to. -/
theorem mem_advance (hpush : Adds push)
    (h : Yields (fun fuel => G.advanceWith push fuel newStacks stack) out) (s : Stack) :
    s ∈ out ↔ s ∈ newStacks ∨ G.Expands stack s := by
  obtain ⟨fuel, h⟩ := h
  change G.advanceWith push fuel newStacks stack = some out at h
  induction fuel generalizing newStacks stack out s with
  | zero => cases h
  | succ fuel ih =>
    cases stack with
    | nil =>
      rw [← Option.some.inj h, hpush]
      apply or_congr_right
      constructor
      · rintro rfl
        exact .empty
      · intro h
        cases h
        rfl
    | cons p rest =>
      by_cases href : (head (G.from p)).type = .RULE_REF
      · rw [advance_ref href] at h
        have hfold := mem_foldlM (R := fun sub => G.Expands (G.expandRef p rest sub))
          (f := fun _ newStacks sub =>
            G.advanceWith push fuel newStacks (G.expandRef p rest sub))
          (fun b a => steady_const _) (fun sub _ b c hc s => ih s (returns_const.1 hc)) ⟨0, h⟩ s
        rw [hfold]
        apply or_congr_right
        constructor
        · rintro ⟨sub, hsub, hexp⟩
          exact .ref href hsub hexp
        · intro h
          cases h with
          | char hc => simp [isClass, href] at hc
          | ref _ hsub hexp => exact ⟨_, hsub, hexp⟩
      · by_cases hc : isClass (head (G.from p))
        · rw [advance_class hc] at h
          rw [← Option.some.inj h, hpush]
          apply or_congr_right
          constructor
          · rintro rfl
            exact .char hc
          · intro h
            cases h with
            | char => rfl
            | ref h => exact absurd h href
        · rw [advance_none hc href] at h
          cases h

/-- Expanding a stack returns where every expansion of its symbols ends. -/
theorem advance_returns (push : Stacks → Stack → Stacks) (hs : G.ValidStack stack)
    (h : Cfg.Halts G.alts (G.symbolsOf stack)) (newStacks : Stacks) :
    ∃ out, Yields (fun fuel => G.advanceWith push fuel newStacks stack) out := by
  generalize hss : G.symbolsOf stack = ss at h
  induction h generalizing stack newStacks with
  | intro ss _ ih =>
    subst hss
    cases stack with
    | nil => exact ⟨_, 1, rfl⟩
    | cons p rest =>
      rcases hs p (.head _) with hc | href
      · exact ⟨_, 1, advance_class hc⟩
      · obtain ⟨es, -, hid⟩ := from_ref href
        simp only [returns_advance_ref href]
        apply exists_foldlM fun b a => steady_advance _ _
        intro sub hsub b
        refine ih _ ?_ (hs.expandRef href hsub) b rfl
        rw [symbolsOf_ref href, symbolsOf_expandRef]
        exact .ref ((mem_alts_iff hid).2 ⟨sub, hsub, rfl⟩)

/-- Where expanding a stack returns, every expansion of its symbols ends. -/
theorem halts_of_advance
    (h : Yields (fun fuel => G.advanceWith push fuel newStacks stack) out) :
    Cfg.Halts G.alts (G.symbolsOf stack) := by
  obtain ⟨fuel, h⟩ := h
  change G.advanceWith push fuel newStacks stack = some out at h
  induction fuel generalizing newStacks stack out with
  | zero => cases h
  | succ fuel ih =>
    cases stack with
    | nil => exact Cfg.halts_nil
    | cons p rest =>
      by_cases href : (head (G.from p)).type = .RULE_REF
      · obtain ⟨es, -, hid⟩ := from_ref href
        rw [advance_ref href] at h
        rw [symbolsOf_ref href, Cfg.halts_ref]
        intro alt halt
        obtain ⟨sub, hsub, rfl⟩ := (mem_alts_iff hid).1 halt
        obtain ⟨b, c, hbc⟩ := foldlM_step (f := fun _ newStacks sub =>
          G.advanceWith push fuel newStacks (G.expandRef p rest sub))
          (fun b a => steady_const _) ⟨0, h⟩ hsub
        have hrest := ih (returns_const.1 hbc)
        rwa [symbolsOf_expandRef] at hrest
      · by_cases hc : isClass (head (G.from p))
        · cases hes : G.from p with
          | nil =>
            rw [hes] at hc
            cases hc
          | cons e es =>
            rw [hes, head_cons] at hc
            rw [symbolsOf_cons, hes, symbols_class hc]
            exact Cfg.halts_char
        · rw [advance_none hc href] at h
          cases h

end Advance

end Rules
end ActQuant.Grammar
