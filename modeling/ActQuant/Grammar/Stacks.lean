import ActQuant.Lib.Cfg
import Mathlib.Data.List.Chain
import Mathlib.Data.List.GetD

namespace ActQuant.Grammar

/-! The elements of a grammar's rules, and the character classes they spell out. -/

/-- `llama_gretype`. -/
inductive Gretype where
  | END
  | ALT
  | RULE_REF
  | CHAR
  | CHAR_NOT
  | CHAR_RNG_UPPER
  | CHAR_ALT
  | CHAR_ANY
  deriving DecidableEq, Repr

structure Element where
  type : Gretype
  value : Nat
  deriving DecidableEq, Repr

def isEndOfSequence (e : Element) : Bool :=
  match e.type with
  | .END => true
  | .ALT => true
  | _ => false

def isCharElement (e : Element) : Bool :=
  match e.type with
  | .CHAR | .CHAR_NOT | .CHAR_ALT | .CHAR_RNG_UPPER | .CHAR_ANY => true
  | _ => false

/-- An element that only adds to the class before it. -/
def isModifier (e : Element) : Bool := e.type = .CHAR_RNG_UPPER ∨ e.type = .CHAR_ALT

/-- The element a class starts with. -/
def isClass (e : Element) : Bool := e.type = .CHAR ∨ e.type = .CHAR_NOT ∨ e.type = .CHAR_ANY

/-- The element a pointer into a rule points to. -/
def head (es : List Element) : Element := es.headD ⟨.END, 0⟩

@[simp] theorem head_cons : head (e :: es) = e := rfl

/-- The loop of `llama_grammar_match_char`: whether the character was found, and how many
elements the class has. -/
def matchLoop (chr : Nat) (found : Bool) : List Element → Bool × Nat
  | [] => (found, 0)
  | [e] => (found || e.type = .CHAR_ANY || e.value = chr, 1)
  | e :: next :: es =>
    if next.type = .CHAR_RNG_UPPER then
      let found := found || (e.value ≤ chr && chr ≤ next.value)
      if (head es).type = .CHAR_ALT then
        let r := matchLoop chr found es
        (r.1, r.2 + 2)
      else (found, 2)
    else
      let found := found || e.type = .CHAR_ANY || e.value = chr
      if next.type = .CHAR_ALT then
        let r := matchLoop chr found (next :: es)
        (r.1, r.2 + 1)
      else (found, 1)

/-- `llama_grammar_match_char`; the second component is how far the pointer moves, and
`none` is the assertion. -/
def matchChar (es : List Element) (chr : Nat) : Option (Bool × Nat) :=
  let positive := (head es).type = .CHAR ∨ (head es).type = .CHAR_ANY
  if positive ∨ (head es).type = .CHAR_NOT then
    let r := matchLoop chr false es
    some (r.1 == decide positive, r.2)
  else none

/-- The characters a class lists, whether it is negated or not. -/
inductive Listed (chr : Nat) : List Element → Prop where
  | range (h : hi.type = .CHAR_RNG_UPPER) (hlo : lo.value ≤ chr) (hhi : chr ≤ hi.value) :
      Listed chr (lo :: hi :: es)
  | any (h : (head es).type ≠ .CHAR_RNG_UPPER) (he : e.type = .CHAR_ANY) : Listed chr (e :: es)
  | exact (h : (head es).type ≠ .CHAR_RNG_UPPER) (he : e.value = chr) : Listed chr (e :: es)
  | behindRange (h : hi.type = .CHAR_RNG_UPPER) (halt : e.type = .CHAR_ALT)
      (hin : Listed chr (e :: es)) : Listed chr (lo :: hi :: e :: es)
  | behind (halt : e'.type = .CHAR_ALT) (hin : Listed chr (e' :: es)) :
      Listed chr (e :: e' :: es)

/-- The characters of the class a sequence of elements starts with. -/
def InClass (es : List Element) (chr : Nat) : Prop :=
  if (head es).type = .CHAR_NOT then ¬ Listed chr es else Listed chr es

/-- What may stand behind an element: the upper end of a range behind a character, one more
character behind a class. -/
def Follows (e next : Element) : Prop :=
  (next.type = .CHAR_RNG_UPPER → isCharElement e ∧ e.type ≠ .CHAR_RNG_UPPER) ∧
    (next.type = .CHAR_ALT → isCharElement e)

instance : DecidableRel Follows := fun e next => by
  unfold Follows
  infer_instance

theorem listed_nil : ¬ Listed chr [] := by
  intro h
  cases h

theorem listed_range (h : hi.type = .CHAR_RNG_UPPER) : Listed chr (lo :: hi :: es) ↔
    (lo.value ≤ chr ∧ chr ≤ hi.value) ∨ ((head es).type = .CHAR_ALT ∧ Listed chr es) := by
  constructor
  · intro hl
    cases hl with
    | range _ hlo hhi => exact .inl ⟨hlo, hhi⟩
    | any h' | exact h' => exact absurd h h'
    | behindRange _ halt hin => exact .inr ⟨halt, hin⟩
    | behind halt => cases h.symm.trans halt
  · rintro (⟨hlo, hhi⟩ | ⟨halt, hin⟩)
    · exact .range h hlo hhi
    · cases es with
      | nil => exact absurd hin listed_nil
      | cons e es => exact .behindRange h halt hin

theorem listed_single (h : (head es).type ≠ .CHAR_RNG_UPPER) : Listed chr (e :: es) ↔
    (e.type = .CHAR_ANY ∨ e.value = chr) ∨ ((head es).type = .CHAR_ALT ∧ Listed chr es) := by
  constructor
  · intro hl
    cases hl with
    | range h' | behindRange h' => exact absurd h' h
    | any _ he => exact .inl (.inl he)
    | exact _ he => exact .inl (.inr he)
    | behind halt hin => exact .inr ⟨halt, hin⟩
  · rintro ((he | he) | ⟨halt, hin⟩)
    · exact .any h he
    · exact .exact h he
    · cases es with
      | nil => exact absurd hin listed_nil
      | cons e' es => exact .behind halt hin

/-- The loop finds the listed characters. -/
theorem matchLoop_found (chr : Nat) : ∀ es found, es ≠ [] →
    ((matchLoop chr found es).1 = true ↔ found = true ∨ Listed chr es) := by
  intro es found hes
  induction found, es using matchLoop.induct chr with
  | case1 => exact absurd rfl hes
  | case2 found e =>
    have hend : (head []).type ≠ .CHAR_RNG_UPPER := by decide
    simp [matchLoop, listed_single hend, or_assoc, listed_nil]
  | case3 found e next es hnext found' halt ih =>
    have hes' : es ≠ [] := by
      rintro rfl
      cases halt
    rw [matchLoop, if_pos hnext, listed_range hnext]
    simp [found', halt, ih hes', or_assoc]
  | case4 found e next es hnext halt =>
    rw [matchLoop, if_pos hnext, listed_range hnext]
    simp [halt]
  | case5 found e next es hnext found' halt ih =>
    have hhead : (head (next :: es)).type ≠ .CHAR_RNG_UPPER := hnext
    rw [matchLoop, if_neg hnext, listed_single hhead]
    simp [found', halt, ih, or_assoc]
  | case6 found e next es hnext halt =>
    have hhead : (head (next :: es)).type ≠ .CHAR_RNG_UPPER := hnext
    rw [matchLoop, if_neg hnext, listed_single hhead]
    simp [halt, or_assoc]

/-- How long the class is does not depend on the character. -/
theorem matchLoop_length (chr chr' : Nat) : ∀ es found found',
    (matchLoop chr found es).2 = (matchLoop chr' found' es).2 := by
  intro es found found'
  induction found, es using matchLoop.induct chr generalizing found' with
  | case1 | case2 => rfl
  | case3 found e next es hnext found₁ halt ih =>
    rw [matchLoop, matchLoop, if_pos hnext, if_pos hnext]
    simp only [halt, if_true]
    congr 1
    exact ih _
  | case4 found e next es hnext halt => simp [matchLoop, hnext, halt]
  | case5 found e next es hnext found₁ halt ih =>
    rw [matchLoop, matchLoop, if_neg hnext, if_neg hnext]
    simp only [halt, if_true]
    congr 1
    exact ih _
  | case6 found e next es hnext halt => simp [matchLoop, hnext, halt]

end ActQuant.Grammar

namespace ActQuant.Grammar
open Lib

/-! Rule sets, positions in them, and the context-free grammar a rule set spells out. -/

/-- A rule has one `END`, at its end, and every modifier behind something it can modify. -/
def RuleWF (rule : List Element) : Prop :=
  rule.getLast? = some ⟨.END, 0⟩ ∧ (∀ e ∈ rule.dropLast, e.type ≠ .END) ∧
    (⟨.ALT, 0⟩ :: rule).IsChain Follows

instance : DecidablePred RuleWF := fun rule => by
  unfold RuleWF
  infer_instance

/-- `llama_grammar_rules`, of which every reference has its rule. -/
structure Rules where
  rules : List (List Element)
  wf : ∀ rule ∈ rules, RuleWF rule
  refs : ∀ rule ∈ rules, ∀ e ∈ rule, e.type = .RULE_REF → e.value < rules.length

/-- A pointer to an element of a rule. -/
structure Pos where
  rule : Nat
  off : Nat
  deriving DecidableEq, Repr

def Pos.add (p : Pos) (n : Nat) : Pos := { p with off := p.off + n }

/-- `llama_grammar_stack`, its top first. -/
abbrev Stack := List Pos

def Rules.rule (G : Rules) (id : Nat) : List Element := G.rules.getD id []

/-- The elements from a position on. -/
def Rules.from (G : Rules) (p : Pos) : List Element := (G.rule p.rule).drop p.off

/-- The symbols up to the end of an alternate. -/
def symbols : List Element → List (Sym Nat Nat)
  | [] => []
  | e :: es =>
    match e.type with
    | .END | .ALT => []
    | .RULE_REF => .ref e.value :: symbols es
    | .CHAR | .CHAR_NOT | .CHAR_ANY => .char (InClass (e :: es)) :: symbols es
    | .CHAR_RNG_UPPER | .CHAR_ALT => symbols es

/-- The alternates of a rule: what stands at its beginning and behind each `ALT`. -/
def Rules.alts (G : Rules) (id : Nat) : Set (List (Sym Nat Nat)) :=
  {ss | id < G.rules.length ∧ ∃ before after, G.rule id = before ++ after ∧
    (before = [] ∨ ∃ e, before.getLast? = some e ∧ e.type = .ALT) ∧ ss = symbols after}

def Rules.symbolsOf (G : Rules) (stack : Stack) : List (Sym Nat Nat) :=
  stack.flatMap fun p => symbols (G.from p)

/-- The position of an element a stack may stand on. -/
def Rules.Valid (G : Rules) (p : Pos) : Prop :=
  isClass (head (G.from p)) ∨ (head (G.from p)).type = .RULE_REF

@[simp] theorem Rules.symbolsOf_nil (G : Rules) : G.symbolsOf [] = [] := rfl

@[simp] theorem Rules.symbolsOf_cons (G : Rules) :
    G.symbolsOf (p :: stack) = symbols (G.from p) ++ G.symbolsOf stack := rfl

theorem Rules.rule_mem (G : Rules) {id : Nat} (h : id < G.rules.length) : G.rule id ∈ G.rules := by
  rw [Rules.rule, List.getD_eq_getElem _ _ h]
  exact List.getElem_mem h

theorem Rules.rule_cases (G : Rules) (id : Nat) : G.rule id ∈ G.rules ∨ G.rule id = [] := by
  by_cases h : id < G.rules.length
  · exact .inl (G.rule_mem h)
  · exact .inr (List.getD_eq_default _ _ (by omega))

theorem Rules.from_add (G : Rules) (p : Pos) (n : Nat) : G.from (p.add n) = (G.from p).drop n :=
  (List.drop_drop).symm

theorem Rules.chain_rule (G : Rules) (id : Nat) : (⟨.ALT, 0⟩ :: G.rule id).IsChain Follows := by
  rcases G.rule_cases id with h | h
  · exact (G.wf _ h).2.2
  · rw [h]
    exact .singleton _

theorem Rules.chain_from (G : Rules) (p : Pos) : (G.from p).IsChain Follows :=
  (G.chain_rule p.rule).tail.drop p.off

theorem Rules.mem_from (G : Rules) (h : e ∈ G.from p) : e ∈ G.rule p.rule :=
  List.mem_of_mem_drop h

theorem Rules.rule_of_ref (G : Rules) (h : e ∈ G.from p) (he : e.type = .RULE_REF) :
    e.value < G.rules.length := by
  have hmem := G.mem_from h
  rcases G.rule_cases p.rule with hr | hr
  · exact G.refs _ hr e hmem he
  · rw [hr] at hmem
    cases hmem

/-- A chain goes on with an element that follows its first. -/
theorem follows_head (h : (e :: es).IsChain Follows) : Follows e (head es) := by
  cases es with
  | nil =>
    constructor
    · intro h
      cases h
    · intro h
      cases h
  | cons e' es => exact (List.isChain_cons_cons.1 h).1

/-- Nothing is modified behind an element that is no character. -/
theorem not_modifier_of_follows (h : Follows e next) (he : isCharElement e = false) :
    isModifier next = false := by
  rw [isModifier, decide_eq_false_iff_not]
  rintro (hu | ha)
  · rw [(h.1 hu).1] at he
    cases he
  · rw [h.2 ha] at he
    cases he

/-- The class the loop runs over ends in front of the next symbol. -/
theorem matchLoop_after (hes : es.IsChain Follows) (hc : isCharElement (head es))
    (hu : (head es).type ≠ .CHAR_RNG_UPPER) :
    symbols (es.drop (matchLoop chr found es).2) = symbols es.tail ∧
      isModifier (head (es.drop (matchLoop chr found es).2)) = false := by
  induction found, es using matchLoop.induct chr with
  | case1 => cases hc
  | case2 found e => exact ⟨rfl, rfl⟩
  | case3 found e next es hnext found' halt ih =>
    have hrest := hes.tail.tail
    have hchar : isCharElement (head es) := by rw [isCharElement, halt]
    obtain ⟨hsym, hmod⟩ := ih hrest hchar (by rw [halt]; decide)
    have hskip : symbols (next :: es) = symbols es.tail := by
      cases es with
      | nil => cases halt
      | cons a es =>
        rw [head_cons] at halt
        simp [symbols, hnext, halt]
    rw [matchLoop, if_pos hnext]
    simp only [halt, if_true, List.drop_succ_cons, List.tail_cons]
    exact ⟨hsym.trans hskip.symm, hmod⟩
  | case4 found e next es hnext halt =>
    have hskip : symbols (next :: es) = symbols es := by simp [symbols, hnext]
    have hnotupper : (head es).type ≠ .CHAR_RNG_UPPER :=
      fun h => ((follows_head hes.tail).1 h).2 hnext
    have hmod : isModifier (head es) = false := by simp [isModifier, halt, hnotupper]
    rw [matchLoop, if_pos hnext]
    simp only [halt, if_false, List.drop_succ_cons, List.drop_zero, List.tail_cons]
    exact ⟨hskip.symm, hmod⟩
  | case5 found e next es hnext found' halt ih =>
    have hchar : isCharElement (head (next :: es)) := by simp [isCharElement, halt]
    obtain ⟨hsym, hmod⟩ := ih hes.tail hchar hnext
    have hskip : symbols (next :: es) = symbols es := by simp [symbols, halt]
    rw [matchLoop, if_neg hnext]
    simp only [halt, if_true, List.drop_succ_cons, List.tail_cons]
    exact ⟨hsym.trans hskip.symm, hmod⟩
  | case6 found e next es hnext halt =>
    have hmod : isModifier next = false := by simp [isModifier, halt, hnext]
    rw [matchLoop, if_neg hnext]
    simp only [halt, if_false, List.drop_succ_cons, List.drop_zero, List.tail_cons, head_cons]
    exact ⟨trivial, hmod⟩

theorem symbols_class (h : isClass e) :
    symbols (e :: es) = .char (InClass (e :: es)) :: symbols es := by
  rw [isClass, decide_eq_true_iff] at h
  rcases h with h | h | h <;> simp [symbols, h]

theorem symbols_ref (h : e.type = .RULE_REF) :
    symbols (e :: es) = .ref e.value :: symbols es := by
  simp [symbols, h]

theorem symbols_end (h : isEndOfSequence (head es)) : symbols es = [] := by
  cases es with
  | nil => rfl
  | cons e es =>
    rw [head_cons] at h
    cases ht : e.type <;> simp_all [isEndOfSequence, symbols]

theorem charElement_of_class (h : isClass e) : isCharElement e := by
  rw [isClass, decide_eq_true_iff] at h
  rcases h with h | h | h <;> simp [isCharElement, h]

/-- An element is the end of an alternate, or a modifier, or a stack may stand on it. -/
theorem element_cases (e : Element) :
    isEndOfSequence e ∨ isModifier e ∨ isClass e ∨ e.type = .RULE_REF := by
  cases h : e.type <;> simp [isEndOfSequence, isModifier, isClass, h]


/-! The stacks of a running grammar. -/

abbrev Stacks := List Stack

/-- A stack is added unless it is there already. -/
def insertStack (newStacks : Stacks) (stack : Stack) : Stacks :=
  if stack ∈ newStacks then newStacks else newStacks ++ [stack]

/-- A stack is added. -/
def appendStack (newStacks : Stacks) (stack : Stack) : Stacks := newStacks ++ [stack]

/-- The offsets behind the `ALT`s of a rule. -/
def scanAlternates (off : Nat) : List Element → List Nat
  | [] => []
  | e :: es =>
    match e.type with
    | .END => []
    | .ALT => (off + 1) :: scanAlternates (off + 1) es
    | _ => scanAlternates (off + 1) es

/-- The offsets of the alternates the scan over a rule stops at. -/
def alternates (rule : List Element) : List Nat := 0 :: scanAlternates 0 rule

namespace Rules
variable (G : Rules)

/-- A position is pushed unless its sequence ends there. -/
def pushNext (pos : Pos) (stack : Stack) : Stack :=
  if isEndOfSequence (head (G.from pos)) then stack else pos :: stack

section
variable (push : Stacks → Stack → Stacks)

/-- `llama_grammar_advance_stack` with the way a stack is added left open; `none` is the abort,
or the end of the fuel. -/
def advanceWith : Nat → Stacks → Stack → Option Stacks
  | 0, _, _ => none
  | _ + 1, newStacks, [] => some (push newStacks [])
  | fuel + 1, newStacks, pos :: rest =>
    match (head (G.from pos)).type with
    | .RULE_REF =>
      let ruleId := (head (G.from pos)).value
      (alternates (G.rule ruleId)).foldlM (fun newStacks sub =>
        advanceWith fuel newStacks (G.pushNext ⟨ruleId, sub⟩ (G.pushNext (pos.add 1) rest)))
        newStacks
    | .CHAR | .CHAR_NOT | .CHAR_ANY => some (push newStacks (pos :: rest))
    | _ => none

/-- The step of `llama_grammar_accept` for one stack. -/
def acceptStackWith (chr fuel : Nat) (stacksNew : Stacks) : Stack → Option Stacks
  | [] => some stacksNew
  | pos :: rest =>
    (matchChar (G.from pos) chr).bind fun found =>
      if found.1 then G.advanceWith push fuel stacksNew (G.pushNext (pos.add found.2) rest)
      else some stacksNew

/-- `llama_grammar_accept`. -/
def acceptWith (fuel : Nat) (grammarStacks : Stacks) (chr : Nat) : Option Stacks :=
  grammarStacks.foldlM (G.acceptStackWith push chr fuel) []

/-- The initial stacks of `llama_grammar_init_impl`. -/
def initWith (start fuel : Nat) : Option Stacks :=
  (alternates (G.rule start)).foldlM
    (fun newStacks sub => G.advanceWith push fuel newStacks (G.pushNext ⟨start, sub⟩ [])) []

/-- The code points of a token are accepted in turn. -/
def acceptAllWith (grammarStacks : Stacks) (chrs : List Nat) (fuel : Nat) :
    Option Stacks :=
  chrs.foldlM (G.acceptWith push fuel) grammarStacks

end

abbrev advanceStack := G.advanceWith insertStack
abbrev accept := G.acceptWith insertStack
abbrev init := G.initWith insertStack
abbrev acceptAll := G.acceptAllWith insertStack

end Rules

/-- `llama_partial_utf8`. -/
structure PartialUtf8 where
  value : Nat
  nRemain : Int
  deriving DecidableEq, Repr

/-- `llama_grammar_candidate`: the code points are a pointer into the token's. -/
structure Candidate where
  index : Nat
  codePoints : List Nat
  offset : Nat
  partialUtf8 : PartialUtf8
  deriving DecidableEq, Repr

/-- The code point at the pointer; 0 ends them. -/
def Candidate.codePoint (tok : Candidate) : Nat := tok.codePoints.getD tok.offset 0

/-- The loop of `llama_grammar_match_partial_char`. -/
def matchPartialLoop (low high : Nat) (positive : Bool) : List Element → Bool
  | [] => !positive
  | [e] =>
    if e.type = .CHAR_ANY then true
    else if low ≤ e.value ∧ e.value ≤ high then positive
    else !positive
  | e :: next :: es =>
    if next.type = .CHAR_RNG_UPPER then
      if e.value ≤ high ∧ low ≤ next.value then positive
      else if (head es).type = .CHAR_ALT then matchPartialLoop low high positive es
      else !positive
    else if e.type = .CHAR_ANY then true
    else if low ≤ e.value ∧ e.value ≤ high then positive
    else if next.type = .CHAR_ALT then matchPartialLoop low high positive (next :: es)
    else !positive

/-- `llama_grammar_match_partial_char`. -/
def matchPartialChar (es : List Element) (p : PartialUtf8) : Option Bool :=
  let positive := (head es).type = .CHAR ∨ (head es).type = .CHAR_ANY
  if positive ∨ (head es).type = .CHAR_NOT then
    if p.nRemain < 0 ∨ (p.nRemain = 1 ∧ p.value < 2) then some false
    else
      let bits := p.nRemain.toNat * 6
      let low := (p.value <<< bits) % 2 ^ 32
      let high := low ||| (2 ^ bits - 1)
      let low :=
        if low = 0 then
          if p.nRemain = 2 then 1 <<< 11 else if p.nRemain = 3 then 1 <<< 16 else low
        else low
      some (matchPartialLoop low high positive es)
  else none

/-- A candidate whose code points begin at the end of the accepted one is rejected, goes on, or
is neither; `rejects` and `nextCandidates` are the two lists. -/
def sortCandidate (es : List Element) (lists : List Candidate × List Candidate)
    (tok : Candidate) : Option (List Candidate × List Candidate) :=
  let (rejects, nextCandidates) := lists
  if tok.codePoint = 0 then
    if tok.partialUtf8.nRemain ≠ 0 then
      (matchPartialChar es tok.partialUtf8).map fun found =>
        if found then (rejects, nextCandidates) else (rejects ++ [tok], nextCandidates)
    else some (rejects, nextCandidates)
  else
    (matchChar es tok.codePoint).map fun found =>
      if found.1 then (rejects, nextCandidates ++ [{ tok with offset := tok.offset + 1 }])
      else (rejects ++ [tok], nextCandidates)

/-- `llama_grammar_reject_candidates` over the function for one stack. -/
def rejectOver (forStack : List Candidate → Stack → Option (List Candidate))
    (grammarStacks : Stacks) (candidates : List Candidate) : Option (List Candidate) :=
  match grammarStacks with
  | [] => none
  | front :: others =>
    if candidates = [] then some []
    else (forStack candidates front).bind fun rejects => others.foldlM forStack rejects

namespace Rules
variable (G : Rules)

/-- `llama_grammar_reject_candidates_for_stack`. -/
def rejectCandidatesForStack : Nat → List Candidate → Stack → Option (List Candidate)
  | 0, _, _ => none
  | _ + 1, candidates, [] =>
    some (candidates.filter fun tok => tok.codePoint ≠ 0 ∨ tok.partialUtf8.nRemain ≠ 0)
  | fuel + 1, candidates, pos :: rest =>
    (candidates.foldlM (sortCandidate (G.from pos)) ([], [])).bind fun lists =>
      (matchChar (G.from pos) 0).bind fun after =>
        (G.advanceStack fuel [] (G.pushNext (pos.add after.2) rest)).bind fun nextStacks =>
          (rejectOver (rejectCandidatesForStack fuel) nextStacks lists.2).map fun nextRejects =>
            lists.1 ++ nextRejects.map fun tok => { tok with offset := tok.offset - 1 }

/-- `llama_grammar_reject_candidates`. -/
def rejectCandidates (grammarStacks : Stacks) (candidates : List Candidate) (fuel : Nat) :
    Option (List Candidate) :=
  rejectOver (G.rejectCandidatesForStack fuel) grammarStacks candidates

end Rules
end ActQuant.Grammar
