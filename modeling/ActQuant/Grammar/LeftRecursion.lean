import ActQuant.Grammar.AdvanceSpec

namespace ActQuant.Grammar
open Lib

/-! The check of a rule set for left recursion, and what it finds out. -/

/-- The marks `llama_grammar_detect_left_recursion` keeps for each rule. -/
structure Marks where
  rulesVisited : List Bool
  rulesInProgress : List Bool
  rulesMayBeEmpty : List Bool

def Marks.start (n : Nat) : Marks :=
  ⟨.replicate n false, .replicate n false, .replicate n false⟩

/-- The first loop: one of the alternates has no element. -/
def hasEmptyAlternate (atRuleStart : Bool) : List Element → Bool
  | [] => false
  | e :: es =>
    if isEndOfSequence e then atRuleStart || hasEmptyAlternate true es
    else hasEmptyAlternate false es

/-- The second loop, with the recursive call as an argument. -/
def scanNonterminals (detect : Nat → Marks → Bool × Marks) (recurse : Bool) (marks : Marks) :
    List Element → Bool × Marks
  | [] => (false, marks)
  | e :: es =>
    if e.type = .RULE_REF ∧ recurse then
      let r := detect e.value marks
      if r.1 then (true, r.2)
      else scanNonterminals detect (r.2.rulesMayBeEmpty.getD e.value false) r.2 es
    else scanNonterminals detect (isEndOfSequence e) marks es

/-- `llama_grammar_detect_left_recursion`. Every call marks one rule more as in progress, so the
fuel of one more than there are rules is not used up. -/
def detectLeftRecursion (rules : List (List Element)) : Nat → Nat → Marks → Bool × Marks
  | 0, _, marks => (true, marks)
  | fuel + 1, ruleIndex, marks =>
    if marks.rulesInProgress.getD ruleIndex false then (true, marks)
    else
      let rule := rules.getD ruleIndex []
      let marks := { marks with rulesInProgress := marks.rulesInProgress.set ruleIndex true }
      let marks :=
        if hasEmptyAlternate true rule then
          { marks with rulesMayBeEmpty := marks.rulesMayBeEmpty.set ruleIndex true }
        else marks
      let r := scanNonterminals (detectLeftRecursion rules fuel) true marks rule
      if r.1 then (true, r.2)
      else
        (false, { r.2 with
          rulesInProgress := r.2.rulesInProgress.set ruleIndex false
          rulesVisited := r.2.rulesVisited.set ruleIndex true })

/-- The check of `llama_grammar_init_impl`: the rules are gone through in turn, without those
visited already. -/
def checkLeftRecursion (rules : List (List Element)) : List Nat → Marks → Bool
  | [], _ => false
  | i :: is, marks =>
    if marks.rulesVisited.getD i false then checkLeftRecursion rules is marks
    else
      let r := detectLeftRecursion rules (rules.length + 1) i marks
      r.1 || checkLeftRecursion rules is r.2

def leftRecursive (rules : List (List Element)) : Bool :=
  checkLeftRecursion rules (List.range rules.length) (.start rules.length)

/-- The references the second loop goes into satisfy `A`. -/
def Corners (rules : List (List Element)) (A : Nat → Prop) (recurse : Bool) : List Element → Prop
  | [] => True
  | e :: es =>
    if e.type = .RULE_REF ∧ recurse then
      A e.value ∧ Corners rules A (hasEmptyAlternate true (rules.getD e.value [])) es
    else Corners rules A (isEndOfSequence e) es

/-- A rule the second loop goes into from another one. -/
def Corner (rules : List (List Element)) (ruleIndex : Nat) : Set Nat :=
  {i | ∀ A, Corners rules A true (rules.getD ruleIndex []) → A i}

theorem Corners.mono {A B : Nat → Prop} (hAB : ∀ i, A i → B i) (hr : r' = true → r = true)
    (h : Corners rules A r es) : Corners rules B r' es := by
  induction es generalizing r r' with
  | nil => trivial
  | cons e es ih =>
    rw [Corners] at h ⊢
    by_cases href : e.type = .RULE_REF
    · have hend : isEndOfSequence e = false := by simp [isEndOfSequence, href]
      cases r' with
      | true =>
        rw [if_pos ⟨href, hr rfl⟩] at h
        rw [if_pos ⟨href, rfl⟩]
        exact ⟨hAB _ h.1, ih id h.2⟩
      | false =>
        rw [if_neg (by simp)]
        cases r with
        | true =>
          rw [if_pos ⟨href, rfl⟩] at h
          exact ih (by simp [hend]) h.2
        | false =>
          rw [if_neg (by simp)] at h
          exact ih id h
    · rw [if_neg (by simp [href])] at h ⊢
      exact ih id h

theorem getD_set_true {l : List Bool} (i k : Nat) :
    (l.set k true).getD i false = true ↔ (k = i ∧ i < l.length) ∨ l.getD i false = true := by
  rw [List.getD_eq_getElem?_getD, List.getD_eq_getElem?_getD, List.getElem?_set]
  by_cases hk : k = i
  · subst hk
    by_cases hlen : k < l.length
    · simp [hlen]
    · simp [hlen]
  · simp [hk]

/-- The rules visited so far start no endless chain of corners. -/
structure Marks.Sound (rules : List (List Element)) (marks : Marks) : Prop where
  length : marks.rulesMayBeEmpty.length = rules.length
  visited : ∀ i, marks.rulesVisited.getD i false = true → Acc (fun b a => b ∈ Corner rules a) i

/-- A call that finds no left recursion. -/
structure Passes (rules : List (List Element)) (i : Nat) (marks marks' : Marks) : Prop where
  sound : marks'.Sound rules
  acc : Acc (fun b a => b ∈ Corner rules a) i
  empty : i < rules.length → hasEmptyAlternate true (rules.getD i []) →
    marks'.rulesMayBeEmpty.getD i false = true
  grows : ∀ k, marks.rulesMayBeEmpty.getD k false = true →
    marks'.rulesMayBeEmpty.getD k false = true

theorem scan_passes {detect : Nat → Marks → Bool × Marks}
    (hdetect : ∀ i marks, marks.Sound rules → (detect i marks).1 = false →
      Passes rules i marks (detect i marks).2)
    (hrefs : ∀ e ∈ es, e.type = .RULE_REF → e.value < rules.length) {marks : Marks}
    (hsound : marks.Sound rules) (h : (scanNonterminals detect recurse marks es).1 = false) :
    (scanNonterminals detect recurse marks es).2.Sound rules ∧
      Corners rules (fun i => Acc (fun b a => b ∈ Corner rules a) i) recurse es ∧
      ∀ k, marks.rulesMayBeEmpty.getD k false = true →
        (scanNonterminals detect recurse marks es).2.rulesMayBeEmpty.getD k false = true := by
  induction es generalizing recurse marks with
  | nil => exact ⟨hsound, trivial, fun _ h => h⟩
  | cons e es ih =>
    have ih := fun {recurse marks} => @ih recurse (fun e' he' => hrefs e' (.tail _ he')) marks
    rw [scanNonterminals] at h ⊢
    rw [Corners]
    by_cases hc : e.type = .RULE_REF ∧ recurse = true
    · simp only [hc, and_self, if_true] at h ⊢
      cases hd : (detect e.value marks).1 with
      | true => simp [hd] at h
      | false =>
        simp only [hd, Bool.false_eq_true, if_false] at h ⊢
        have hpasses := hdetect _ _ hsound hd
        obtain ⟨hsound', hcorners, hgrows⟩ := ih hpasses.sound h
        refine ⟨hsound', ⟨hpasses.acc, hcorners.mono (fun _ h => h) ?_⟩, ?_⟩
        · exact hpasses.empty (hrefs e (.head _) hc.1)
        · exact fun k hk => hgrows k (hpasses.grows k hk)
    · simp only [hc, if_false] at h ⊢
      exact ih hsound h

/-- A call that finds no left recursion went into every corner of the rule. -/
theorem detect_passes (hrefs : ∀ rule ∈ rules, ∀ e ∈ rule, e.type = .RULE_REF →
      e.value < rules.length) (fuel i : Nat) (marks : Marks) (hsound : marks.Sound rules)
    (h : (detectLeftRecursion rules fuel i marks).1 = false) :
    Passes rules i marks (detectLeftRecursion rules fuel i marks).2 := by
  induction fuel generalizing i marks with
  | zero => cases h
  | succ fuel ih =>
    rw [detectLeftRecursion] at h ⊢
    by_cases hp : marks.rulesInProgress.getD i false = true
    · rw [if_pos hp] at h
      cases h
    · simp only [hp, Bool.false_eq_true, if_false] at h ⊢
      generalize hm : (if hasEmptyAlternate true (rules.getD i []) = true then
        { { marks with rulesInProgress := marks.rulesInProgress.set i true } with
          rulesMayBeEmpty := marks.rulesMayBeEmpty.set i true }
        else { marks with rulesInProgress := marks.rulesInProgress.set i true }) = marked at h ⊢
      have hmarked : marked.Sound rules ∧
          (i < rules.length → hasEmptyAlternate true (rules.getD i []) →
            marked.rulesMayBeEmpty.getD i false = true) ∧
          ∀ k, marks.rulesMayBeEmpty.getD k false = true →
            marked.rulesMayBeEmpty.getD k false = true := by
        rw [← hm]
        split
        case isTrue hempty =>
          refine ⟨⟨List.length_set.trans hsound.length, hsound.visited⟩, ?_, ?_⟩
          · exact fun hi _ => (getD_set_true i i).2 (.inl ⟨rfl, hsound.length ▸ hi⟩)
          · exact fun k hk => (getD_set_true k i).2 (.inr hk)
        case isFalse hempty =>
          exact ⟨⟨hsound.length, hsound.visited⟩, fun _ h => absurd h hempty, fun _ h => h⟩
      have hrule : ∀ e ∈ rules.getD i [], e.type = .RULE_REF → e.value < rules.length := by
        intro e he
        by_cases hi : i < rules.length
        · rw [List.getD_eq_getElem _ _ hi] at he
          exact hrefs _ (List.getElem_mem hi) e he
        · rw [List.getD_eq_default _ _ (by omega)] at he
          cases he
      cases hr : (scanNonterminals (detectLeftRecursion rules fuel) true marked
        (rules.getD i [])).1 with
      | true =>
        simp only [hr, if_true] at h
        cases h
      | false =>
        obtain ⟨hsound', hcorners, hgrows⟩ := scan_passes ih hrule hmarked.1 hr
        have hacc : Acc (fun b a => b ∈ Corner rules a) i := ⟨i, fun b hb => hb _ hcorners⟩
        simp only [Bool.false_eq_true, if_false]
        refine ⟨⟨hsound'.length, ?_⟩, hacc, ?_, ?_⟩
        · intro k hk
          rcases (getD_set_true k i).1 hk with ⟨rfl, -⟩ | hk
          · exact hacc
          · exact hsound'.visited k hk
        · exact fun hi hempty => hgrows i (hmarked.2.1 hi hempty)
        · exact fun k hk => hgrows k (hmarked.2.2 k hk)

theorem check_acc (hrefs : ∀ rule ∈ rules, ∀ e ∈ rule, e.type = .RULE_REF →
      e.value < rules.length) (is : List Nat) (marks : Marks) (hsound : marks.Sound rules)
    (h : checkLeftRecursion rules is marks = false) :
    ∀ i ∈ is, Acc (fun b a => b ∈ Corner rules a) i := by
  induction is generalizing marks with
  | nil => exact fun _ h => nomatch h
  | cons i is ih =>
    rw [checkLeftRecursion] at h
    by_cases hv : marks.rulesVisited.getD i false = true
    · rw [if_pos hv] at h
      intro k hk
      cases hk with
      | head => exact hsound.visited i hv
      | tail _ hk => exact ih marks hsound h k hk
    · simp only [hv, Bool.false_eq_true, if_false, Bool.or_eq_false_iff] at h
      have hpasses := detect_passes hrefs _ i marks hsound h.1
      intro k hk
      cases hk with
      | head => exact hpasses.acc
      | tail _ hk => exact ih _ hpasses.sound h.2 k hk

/-- A rule set that passes the check has no endless chain of the corners the check looks at. -/
theorem acc_of_check (hrefs : ∀ rule ∈ rules, ∀ e ∈ rule, e.type = .RULE_REF →
      e.value < rules.length) (h : leftRecursive rules = false) (hi : i < rules.length) :
    Acc (fun b a => b ∈ Corner rules a) i := by
  refine check_acc hrefs _ _ ⟨List.length_replicate, ?_⟩ h i (List.mem_range.2 hi)
  intro k hk
  simp [Marks.start] at hk

/-- The loop begins anew behind each `ALT`. -/
theorem Corners.behind (h : Corners rules A r (before ++ after))
    (hbefore : ∃ e, before.getLast? = some e ∧ e.type = .ALT) : Corners rules A true after := by
  induction before generalizing r with
  | nil =>
    obtain ⟨e, he, -⟩ := hbefore
    cases he
  | cons a before ih =>
    rw [List.cons_append, Corners] at h
    obtain ⟨e, he, halt⟩ := hbefore
    cases before with
    | nil =>
      have hae : a = e := Option.some.inj he
      rw [← hae] at halt
      have hend : isEndOfSequence a = true := by rw [isEndOfSequence, halt]
      rw [if_neg (by simp [halt]), hend] at h
      exact h
    | cons b before =>
      have hbefore : ∃ e, (b :: before).getLast? = some e ∧ e.type = .ALT :=
        ⟨e, by rwa [List.getLast?_cons_cons] at he, halt⟩
      split at h
      case isTrue => exact ih h.2 hbefore
      case isFalse => exact ih h hbefore

/-- The element behind a reference at the front of a sequence. -/
theorem symbols_eq_ref (hhead : isModifier (head es) = false)
    (hes : symbols es = .ref n :: rest) :
    ∃ e es', es = e :: es' ∧ e.type = .RULE_REF ∧ e.value = n ∧ symbols es' = rest := by
  cases es with
  | nil => cases hes
  | cons e es =>
    rcases element_cases e with he | he | he | he
    · have hnil : symbols (e :: es) = [] := symbols_end he
      rw [hnil] at hes
      cases hes
    · rw [head_cons, he] at hhead
      cases hhead
    · rw [symbols_class he] at hes
      cases hes
    · rw [symbols_ref he] at hes
      obtain ⟨hn, hrest⟩ := List.cons.inj hes
      exact ⟨e, es, rfl, he, Sym.ref.inj hn, hrest⟩

/-- The loop goes into a reference behind references with an empty alternate. -/
theorem Corners.reach (h : Corners rules A true es) (hchain : es.IsChain Follows)
    (hhead : isModifier (head es) = false) (hes : symbols es = before ++ .ref i :: after)
    (hbefore : ∀ s ∈ before, ∃ n, s = .ref n ∧ hasEmptyAlternate true (rules.getD n [])) :
    A i := by
  induction before generalizing es with
  | nil =>
    obtain ⟨e, es, rfl, he, rfl, _⟩ := symbols_eq_ref hhead hes
    rw [Corners, if_pos ⟨he, rfl⟩] at h
    exact h.1
  | cons s before ih =>
    obtain ⟨n, rfl, hn⟩ := hbefore s (.head _)
    obtain ⟨e, es, rfl, he, rfl, hrest⟩ := symbols_eq_ref hhead hes
    rw [Corners, if_pos ⟨he, rfl⟩, hn] at h
    have hnext : isModifier (head es) = false :=
      not_modifier_of_follows (follows_head hchain) (by rw [isCharElement, he])
    exact ih h.2 hchain.tail hnext hrest fun s hs => hbefore s (.tail _ hs)

namespace Rules
variable {G : Rules}

/-- What derives the empty word are references to rules that do. -/
theorem derives_empty_refs (h : Cfg.Derives G.alts ss w) (hw : w = []) :
    ∀ s ∈ ss, ∃ n, s = .ref n ∧ Cfg.Derives G.alts [.ref n] [] := by
  induction h with
  | nil => exact fun _ h => nomatch h
  | char => cases hw
  | @ref n u ss w alt halt hu hrest _ ih =>
    obtain ⟨rfl, rfl⟩ := List.append_eq_nil_iff.1 hw
    intro s hs
    cases hs with
    | head => exact ⟨_, rfl, Cfg.derives_ref.2 ⟨_, halt, by simpa using hu⟩⟩
    | tail _ hs => exact ih rfl s hs

theorem corner_of_leftCorner (hempty : ∀ n, Cfg.Derives G.alts [.ref n] [] →
      hasEmptyAlternate true (G.rule n)) (h : Cfg.LeftCorner G.alts n n') :
    n' ∈ Corner G.rules n := by
  obtain ⟨alt, ⟨hn, before, after, hrule, hbefore, rfl⟩, front, rest, hfront, hnull⟩ := h
  intro A hA
  have hhead := altStart_head (G := G) ⟨before, after, hrule, hbefore, rfl⟩
  have hchain := G.chain_from ⟨n, before.length⟩
  have hafter : G.from ⟨n, before.length⟩ = after := by rw [Rules.from, hrule, List.drop_left]
  rw [hafter] at hhead hchain
  have hcorners : Corners G.rules A true after := by
    rw [show G.rules.getD n [] = before ++ after from hrule] at hA
    rcases hbefore with rfl | hbefore
    · exact hA
    · exact hA.behind hbefore
  apply hcorners.reach hchain hhead hfront
  intro s hs
  obtain ⟨m, rfl, hm⟩ := derives_empty_refs hnull rfl s hs
  exact ⟨m, rfl, hempty m hm⟩

/-- The check is enough where every rule that derives the empty word has an empty alternate. -/
theorem noLeftRecursion_of_check (h : leftRecursive G.rules = false)
    (hempty : ∀ n, Cfg.Derives G.alts [.ref n] [] → hasEmptyAlternate true (G.rule n)) :
    Cfg.NoLeftRecursion G.alts := by
  have hacc : ∀ n, Acc (fun b a => Cfg.LeftCorner G.alts a b) n := by
    intro n
    by_cases hn : n < G.rules.length
    · exact Subrelation.accessible (fun hab => corner_of_leftCorner hempty hab)
        (acc_of_check G.refs h hn)
    · refine ⟨n, ?_⟩
      rintro n' ⟨alt, halt, -⟩
      exact absurd halt.1 hn
  have hwf : WellFounded fun b a => Cfg.LeftCorner G.alts a b := ⟨hacc⟩
  intro n hn
  have hn' := Relation.transGen_swap.2 hn
  exact hwf.transGen.asymmetric n n hn' hn'

end Rules
end ActQuant.Grammar
