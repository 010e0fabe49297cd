import ActQuant.Grammar.ParserSpec
import ActQuant.Lib.Separated

namespace ActQuant.Grammar
open Lib

/-! The rules of a repetition, and the words they derive. -/

/-! ### Symbols of items -/

/-- Elements of one alternate, without its end. -/
def Flat (es : List Element) : Prop := ∀ e ∈ es, isEndOfSequence e = false

theorem flat_nil : Flat [] := fun _ h => absurd h List.not_mem_nil

theorem not_modifier (h : isModifier e = false) :
    e.type ≠ .CHAR_RNG_UPPER ∧ e.type ≠ .CHAR_ALT := by
  rw [isModifier, decide_eq_false_iff_not, not_or] at h
  exact h

theorem listed_cons (hnext : next.type ≠ .CHAR_RNG_UPPER) : Listed chr (e :: next :: es) ↔
    (e.type = .CHAR_ANY ∨ e.value = chr) ∨ (next.type = .CHAR_ALT ∧ Listed chr (next :: es)) :=
  listed_single hnext

theorem listed_last : Listed chr [e] ↔
    (e.type = .CHAR_ANY ∨ e.value = chr) ∨ ((head []).type = .CHAR_ALT ∧ Listed chr []) :=
  listed_single (by decide)

/-- A class ends in front of an element that modifies nothing. -/
theorem listed_append (hmod : isModifier (head es') = false) : ∀ (e : Element) (es : List Element),
    Listed chr (e :: (es ++ es')) ↔ Listed chr (e :: es)
  | e, [] => by
    obtain ⟨hupper, halt⟩ := not_modifier hmod
    rw [List.nil_append, listed_single hupper, listed_last]
    exact or_congr Iff.rfl (iff_of_false (fun h => halt h.1) fun h => listed_nil h.2)
  | e, [next] => by
    obtain ⟨_, halt⟩ := not_modifier hmod
    by_cases hnext : next.type = .CHAR_RNG_UPPER
    · rw [List.singleton_append, listed_range hnext, listed_range hnext]
      exact or_congr Iff.rfl (iff_of_false (fun h => halt h.1) fun h => listed_nil h.2)
    · rw [List.singleton_append, listed_cons hnext, listed_cons hnext]
      exact or_congr Iff.rfl (and_congr Iff.rfl (listed_append hmod next []))
  | e, next :: a :: es => by
    rw [List.cons_append, List.cons_append]
    by_cases hnext : next.type = .CHAR_RNG_UPPER
    · rw [listed_range hnext, listed_range hnext]
      exact or_congr Iff.rfl (and_congr Iff.rfl (listed_append hmod a es))
    · rw [listed_cons hnext, listed_cons hnext]
      exact or_congr Iff.rfl (and_congr Iff.rfl (listed_append hmod next (a :: es)))

theorem inClass_append (hmod : isModifier (head es') = false) (e : Element) (es : List Element) :
    InClass (e :: (es ++ es')) = InClass (e :: es) := by
  funext chr
  rw [InClass, InClass, head_cons, head_cons, listed_append hmod]

theorem symbols_append (hflat : Flat es) (hmod : isModifier (head es') = false) :
    symbols (es ++ es') = symbols es ++ symbols es' := by
  induction es with
  | nil => rfl
  | cons e es ih =>
    obtain ⟨he, hes⟩ := List.forall_mem_cons.1 hflat
    rw [List.cons_append, symbols, symbols, ih hes, inClass_append hmod]
    rw [isEndOfSequence] at he
    cases htype : e.type with
    | END | ALT =>
      rw [htype] at he
      cases he
    | RULE_REF | CHAR | CHAR_NOT | CHAR_ANY | CHAR_RNG_UPPER | CHAR_ALT => rfl

theorem not_modifier_of_tidy (h : Tidy es) : isModifier (head es) = false := by
  cases es with
  | nil => rfl
  | cons e es => exact not_modifier_of_follows (List.isChain_cons_cons.1 h.chain).1 rfl

theorem Flat.append (h : Flat es) (h' : Flat es') : Flat (es ++ es') := by
  intro e he
  rcases List.mem_append.1 he with he | he
  · exact h e he
  · exact h' e he

theorem flat_single (h : isEndOfSequence e = false) : Flat [e] := by
  intro e' he'
  rwa [List.mem_singleton.1 he']

theorem Flat.flatten (h : Flat es) (n : Nat) : Flat (List.replicate n es).flatten := by
  intro e he
  obtain ⟨l, hl, he⟩ := List.mem_flatten.1 he
  rw [List.eq_of_mem_replicate hl] at he
  exact h e he

theorem symbols_flatten (hflat : Flat es) (htidy : Tidy es) (n : Nat) :
    symbols (List.replicate n es).flatten = (List.replicate n (symbols es)).flatten := by
  induction n with
  | zero => rfl
  | succ n ih =>
    rw [List.replicate_succ, List.flatten_cons, List.replicate_succ, List.flatten_cons,
      symbols_append hflat (not_modifier_of_tidy (htidy.flatten n)), ih]

/-- The elements of alternates, with an `ALT` between them. -/
def joinAlternates : List (List Element) → List Element
  | [] => []
  | [es] => es
  | es :: es' :: ess => es ++ ⟨.ALT, 0⟩ :: joinAlternates (es' :: ess)

/-- The symbols of an alternate of a rule. -/
def AlternateOf (rule : List Element) (ss : List (Sym Nat Nat)) : Prop :=
  ∃ before after, rule = before ++ after ∧
    (before = [] ∨ ∃ e, before.getLast? = some e ∧ e.type = .ALT) ∧ ss = symbols after

theorem Flat.ne_alt (h : Flat es) (he : e ∈ es) : e.type ≠ .ALT := by
  intro htype
  have hnot := h e he
  rw [isEndOfSequence, htype] at hnot
  cases hnot

theorem alternateOf_end (hflat : Flat es) :
    AlternateOf (es ++ [⟨.END, 0⟩]) ss ↔ ss = symbols es := by
  have hall : symbols (es ++ [⟨.END, 0⟩]) = symbols es :=
    (symbols_append hflat (by rfl)).trans (List.append_nil _)
  constructor
  · rintro ⟨before, after, hsplit, rfl | ⟨e, hlast, htype⟩, rfl⟩
    · rw [← hall, hsplit, List.nil_append]
    · have hmem : e ∈ es ++ [⟨.END, 0⟩] := by
        rw [hsplit]
        exact List.mem_append_left _ (List.mem_of_getLast? hlast)
      rcases List.mem_append.1 hmem with hmem | hmem
      · exact absurd htype (hflat.ne_alt hmem)
      · rw [List.mem_singleton.1 hmem] at htype
        cases htype
  · rintro rfl
    exact ⟨[], _, rfl, .inl rfl, hall.symm⟩

theorem alternateOf_alt (hflat : Flat es) :
    AlternateOf (es ++ ⟨.ALT, 0⟩ :: rest) ss ↔ ss = symbols es ∨ AlternateOf rest ss := by
  have hfirst : symbols (es ++ ⟨.ALT, 0⟩ :: rest) = symbols es :=
    (symbols_append hflat (by rfl)).trans (List.append_nil _)
  constructor
  · rintro ⟨before, after, hsplit, rfl | ⟨e, hlast, htype⟩, rfl⟩
    · rw [← hfirst, hsplit, List.nil_append]
      exact .inl rfl
    · have hmem := List.mem_of_getLast? hlast
      rcases List.append_eq_append_iff.1 hsplit with ⟨c, rfl, hc⟩ | ⟨c, rfl, -⟩
      · cases c with
        | nil =>
          rw [List.append_nil] at hmem
          exact absurd htype (hflat.ne_alt hmem)
        | cons a c =>
          obtain ⟨rfl, rfl⟩ := List.cons.inj hc
          refine .inr ⟨c, after, rfl, ?_, rfl⟩
          cases c with
          | nil => exact .inl rfl
          | cons b c =>
            rw [List.getLast?_append_cons, List.getLast?_cons_cons] at hlast
            exact .inr ⟨e, hlast, htype⟩
      · exact absurd htype (hflat.ne_alt (List.mem_append_left _ hmem))
  · rintro (rfl | ⟨before, after, rfl, hbefore, rfl⟩)
    · exact ⟨[], _, rfl, .inl rfl, hfirst.symm⟩
    · refine ⟨es ++ ⟨.ALT, 0⟩ :: before, after, by simp, .inr ?_, rfl⟩
      cases before with
      | nil => exact ⟨⟨.ALT, 0⟩, List.getLast?_concat, rfl⟩
      | cons b before =>
        obtain ⟨e, hlast, htype⟩ := hbefore.resolve_left (List.cons_ne_nil _ _)
        refine ⟨e, ?_, htype⟩
        rw [List.getLast?_append_cons, List.getLast?_cons_cons, hlast]

theorem alternateOf_join (hne : ess ≠ []) (hflat : ∀ es ∈ ess, Flat es) :
    AlternateOf (joinAlternates ess ++ [⟨.END, 0⟩]) ss ↔ ∃ es ∈ ess, ss = symbols es := by
  induction ess with
  | nil => exact absurd rfl hne
  | cons es ess ih =>
    obtain ⟨hes, hess⟩ := List.forall_mem_cons.1 hflat
    cases ess with
    | nil =>
      rw [joinAlternates, alternateOf_end hes]
      simp only [List.mem_singleton, exists_eq_left]
    | cons es' ess =>
      rw [joinAlternates, List.append_assoc, List.cons_append, alternateOf_alt hes,
        ih (List.cons_ne_nil _ _) hess, List.exists_mem_cons_iff _ es]

/-- The alternates of a rule. -/
theorem alts_join {G : Rules} {id : Nat} (hrule : G.rule id = joinAlternates ess ++ [⟨.END, 0⟩])
    (hne : ess ≠ []) (hflat : ∀ es ∈ ess, Flat es) :
    G.alts id = {ss | ∃ es ∈ ess, ss = symbols es} := by
  have hlen : id < G.rules.length := by
    by_contra hle
    rw [Rules.rule, List.getD_eq_default _ _ (Nat.le_of_not_lt hle)] at hrule
    exact absurd hrule.symm (List.append_ne_nil_of_right_ne_nil _ (List.cons_ne_nil _ _))
  ext ss
  rw [Set.mem_ofPred_eq, ← alternateOf_join hne hflat, ← hrule]
  exact and_iff_right hlen

/-- The alternates of a rule with one alternate and an empty one. -/
theorem alts_optional {G : Rules} {id : Nat} (hrule : G.rule id = es ++ [⟨.ALT, 0⟩, ⟨.END, 0⟩])
    (hflat : Flat es) : G.alts id = {symbols es, []} := by
  have hjoin : es ++ [⟨.ALT, 0⟩, ⟨.END, 0⟩] = joinAlternates [es, []] ++ [⟨.END, 0⟩] := by
    rw [joinAlternates, List.append_assoc]
    rfl
  rw [alts_join (hrule.trans hjoin) (List.cons_ne_nil _ _) (by simp [hflat, flat_nil])]
  ext ss
  simp [symbols]

/-! ### The rules that are added -/

namespace Parser

def ruleAt (P : Parser) (id : Nat) : List Element := P.rules.getD id []

theorem ruleAt_addRule (P : Parser) (id : Nat) (rule : List Element) (id' : Nat) :
    (P.addRule id rule).ruleAt id' = if id' = id then rule else P.ruleAt id' := by
  rw [ruleAt, addRule, ruleAt, List.getD_eq_getElem?_getD, List.getD_eq_getElem?_getD]
  split
  case isTrue h =>
    rw [h, List.getElem?_set_self]
    · rfl
    · rw [List.length_append, List.length_replicate]
      omega
  case isFalse h =>
    rw [List.getElem?_set_ne (Ne.symm h)]
    by_cases hlt : id' < P.rules.length
    · rw [List.getElem?_append_left hlt]
    · rw [List.getElem?_append_right (Nat.le_of_not_lt hlt),
        List.getElem?_eq_none (Nat.le_of_not_lt hlt), List.getElem?_replicate]
      split <;> rfl

theorem length_addRule (P : Parser) (id : Nat) (rule : List Element) :
    (P.addRule id rule).rules.length = max P.rules.length (id + 1) := by
  rw [addRule, List.length_set, List.length_append, List.length_replicate]
  omega

/-- The numbers of the names so far. -/
def count (P : Parser) : Nat := P.symbolIds.length

@[simp] theorem count_addRule (P : Parser) (id : Nat) (rule : List Element) :
    (P.addRule id rule).count = P.count := rfl

theorem generateSymbolId_eq {P : Parser} (h : P.WF) (base : Text) :
    P.generateSymbolId base = (P.count,
      { P with symbolIds := P.symbolIds ++ [(.generated base P.count, P.count)] }) := by
  rw [generateSymbolId]
  simp only [h.filter_generated base]
  rfl

/-- The state after one more name of a group or a repetition. -/
def generated (P : Parser) (base : Text) : Parser :=
  { P with symbolIds := P.symbolIds ++ [(.generated base P.count, P.count)] }

@[simp] theorem ruleAt_generated (P : Parser) (base : Text) (id : Nat) :
    (P.generated base).ruleAt id = P.ruleAt id := rfl

@[simp] theorem count_generated (P : Parser) (base : Text) :
    (P.generated base).count = P.count + 1 := List.length_append

theorem WF.generated {P : Parser} (h : P.WF) (base : Text) : (P.generated base).WF := by
  have hstep := (generateSymbolId_step h base).1.1
  rwa [generateSymbolId_eq h base] at hstep

theorem WF.named_generated {P : Parser} (h : P.Named es) (base : Text) :
    (P.generated base).Named es :=
  h.mono fun _ hkv => List.mem_append_left _ hkv

/-- What a repetition refers to behind the item in its rule number `j`. -/
def recRef (maxTimes : Int) (first : Nat) (j : Nat) : List Element :=
  if 0 < j ∨ maxTimes < 0 then [⟨.RULE_REF, if maxTimes < 0 then first + j else first + j - 1⟩]
  else []

theorem tidy_recRef (maxTimes : Int) (first j : Nat) : Tidy (recRef maxTimes first j) := by
  rw [recRef]
  split
  case isTrue => exact tidy_single rfl (by simp)
  case isFalse => exact tidy_nil

/-- The rules of a repetition, from rule number `i` on. -/
theorem addRecRules_eq (ruleName : Text) (maxTimes : Int) (htidy : Tidy prevRule) (first : Nat)
    (n i last : Nat) {P : Parser} (h : P.WF) (hnamed : P.Named prevRule)
    (hcount : P.count = first + i) (hlast : 0 < i → last = first + i - 1)
    (hnamed' : 0 < i → ∃ name, (name, last) ∈ P.symbolIds) :
    (0 < i + n → (addRecRules ruleName prevRule maxTimes n i last P).1 = first + i + n - 1) ∧
      (addRecRules ruleName prevRule maxTimes n i last P).2.symbolIds = P.symbolIds ++
        (List.range' (first + i) n).map (fun id => (.generated ruleName id, id)) ∧
      (∀ id, (addRecRules ruleName prevRule maxTimes n i last P).2.ruleAt id =
        if first + i ≤ id ∧ id < first + i + n then
          prevRule ++ recRef maxTimes first (id - first) ++ [⟨.ALT, 0⟩, ⟨.END, 0⟩]
        else P.ruleAt id) ∧
      (P.rules.length ≤ P.count →
        (addRecRules ruleName prevRule maxTimes n i last P).2.rules.length ≤
          (addRecRules ruleName prevRule maxTimes n i last P).2.count) := by
  induction n generalizing i last P with
  | zero =>
    refine ⟨fun hi => hlast hi, (List.append_nil _).symm, fun id => ?_, fun h => h⟩
    rw [if_neg (by omega)]
    rfl
  | succ n ih =>
    have hgen : P.generateSymbolId ruleName = (P.count, P.generated ruleName) :=
      generateSymbolId_eq h ruleName
    have hself : (SymbolName.generated ruleName P.count, P.count) ∈
        (P.generated ruleName).symbolIds := List.mem_append_right _ (List.mem_singleton.2 rfl)
    have hnext : (if 0 < i ∨ maxTimes < 0 then
        [(⟨.RULE_REF, if maxTimes < 0 then P.count else last⟩ : Element)] else []) =
          recRef maxTimes first i := by
      rw [recRef]
      split
      case isTrue hc =>
        split
        case isTrue => rw [hcount]
        case isFalse hmax => rw [hlast (hc.resolve_right hmax)]
      case isFalse => rfl
    have hrefnamed : (P.generated ruleName).Named (recRef maxTimes first i) := by
      rw [← hnext]
      split
      case isTrue hc =>
        refine named_single fun _ => ?_
        dsimp only
        split
        case isTrue => exact ⟨_, hself⟩
        case isFalse hmax =>
          obtain ⟨name, hname⟩ := hnamed' (hc.resolve_right hmax)
          exact ⟨name, List.mem_append_left _ hname⟩
      case isFalse => exact named_nil _
    have hadd := addRule_step (h.generated ruleName)
      ((htidy.append (tidy_recRef maxTimes first i)).append
        (tidy_single (e := ⟨.ALT, 0⟩) rfl (by simp)))
      (((WF.named_generated hnamed ruleName).append hrefnamed).append
        (named_of_not_ref (by simp))) P.count
    have hbody : prevRule ++ recRef maxTimes first i ++ [⟨.ALT, 0⟩] ++ [⟨.END, 0⟩] =
        prevRule ++ recRef maxTimes first i ++ [⟨.ALT, 0⟩, ⟨.END, 0⟩] := List.append_assoc _ _ _
    rw [hbody] at hadd
    rw [addRecRules, hgen]
    dsimp only
    rw [hnext]
    obtain ⟨hid, hlen, hrules, hlength⟩ := ih (i + 1) P.count hadd.1
      ((WF.named_generated hnamed ruleName).mono hadd.2)
      (by rw [count_addRule, count_generated]; omega) (fun _ => by omega)
      (fun _ => ⟨_, hadd.2 _ hself⟩)
    refine ⟨fun _ => ?_, ?_, fun id => ?_, fun hle => hlength ?_⟩
    · rw [hid (by omega)]
      omega
    · have hsucc : first + (i + 1) = P.count + 1 := by omega
      rw [hlen, hsucc, ← hcount, List.range'_succ, List.map_cons]
      exact List.append_assoc _ _ _
    · rw [hrules id, ruleAt_addRule, ruleAt_generated]
      by_cases hid' : id = P.count
      · rw [if_neg (by omega), if_pos hid', if_pos (by omega)]
        congr 3
        omega
      · rw [if_neg hid']
        by_cases hin : first + (i + 1) ≤ id ∧ id < first + (i + 1) + n
        · rw [if_pos hin, if_pos (by omega)]
        · rw [if_neg hin, if_neg (by omega)]
    · have hcount' := count_generated P ruleName
      have hrules' : (P.generated ruleName).rules = P.rules := rfl
      rw [length_addRule, count_addRule, hrules']
      omega

/-- What a repetition leaves of a rule, and the rules it adds. -/
theorem handleRepetitions_eq {P : Parser} (h : P.WF) (hs : P.Split rule k)
    (hr : P.handleRepetitions ruleName rule k minTimes maxTimes = some (P', rule')) :
    let nOpt := (if maxTimes < 0 then 1 else maxTimes - minTimes).toNat
    rule.drop k ≠ [] ∧ P'.symbolIds = P.symbolIds ++
        (List.range' P.count nOpt).map (fun id => (.generated ruleName id, id)) ∧
      (∀ id, P'.ruleAt id = if P.count ≤ id ∧ id < P.count + nOpt then
        rule.drop k ++ recRef maxTimes P.count (id - P.count) ++ [⟨.ALT, 0⟩, ⟨.END, 0⟩]
        else P.ruleAt id) ∧
      rule' = rule.take k ++ ((if minTimes = 0 then [] else
        (List.replicate ((minTimes - 1).toNat + 1) (rule.drop k)).flatten) ++
          if 0 < nOpt then [⟨.RULE_REF, P.count + nOpt - 1⟩] else []) := by
  rw [handleRepetitions] at hr
  split at hr
  case isTrue => cases hr
  case isFalse hne =>
    have hitem : P.Named (rule.drop k) := hs.named.sub fun e he => List.mem_of_mem_drop he
    obtain ⟨hid, hlen, hrules, _⟩ := addRecRules_eq ruleName maxTimes hs.item P.count
      (if maxTimes < 0 then 1 else maxTimes - minTimes).toNat 0 0 h hitem rfl
      (fun h => absurd h (Nat.lt_irrefl 0)) (fun h => absurd h (Nat.lt_irrefl 0))
    dsimp only at hr ⊢
    generalize hn : (if maxTimes < 0 then 1 else maxTimes - minTimes) = nOpt at hr hid hlen hrules ⊢
    obtain ⟨rfl, rfl⟩ := Prod.mk.inj (Option.some.inj hr)
    refine ⟨?_, hlen, fun id => ?_, ?_⟩
    · rw [ne_eq, List.drop_eq_nil_iff]
      have hle := hs.le
      omega
    · rw [hrules id]
      simp only [Nat.add_zero]
    · have hrepeated : (if minTimes = 0 then rule.take k
          else rule ++ (List.replicate (minTimes - 1).toNat (rule.drop k)).flatten) =
          rule.take k ++ if minTimes = 0 then [] else
            (List.replicate ((minTimes - 1).toNat + 1) (rule.drop k)).flatten := by
        split
        case isTrue => exact (List.append_nil _).symm
        case isFalse =>
          rw [List.replicate_succ, List.flatten_cons, ← List.append_assoc, List.take_append_drop]
      rw [hrepeated, ← List.append_assoc]
      by_cases hpos : 0 < nOpt
      · rw [if_pos hpos, if_pos (show 0 < nOpt.toNat by omega), hid (by omega)]
        rfl
      · rw [if_neg hpos, if_neg (show ¬ 0 < nOpt.toNat by omega), List.append_nil]

end Parser

/-! ### The words -/

theorem flat_recRef (maxTimes : Int) (first j : Nat) : Flat (Parser.recRef maxTimes first j) := by
  rw [Parser.recRef]
  split
  case isTrue => exact flat_single rfl
  case isFalse => exact flat_nil

/-- The numbers of repetitions between two bounds. -/
def InRange (m : Nat) (n : Option Nat) (k : Nat) : Prop := m ≤ k ∧ ∀ b ∈ n, k ≤ b

/-- The upper bound as `handle_repetitions` gets it. -/
def maxOf (n : Option Nat) : Int := n.elim (-1) fun b => b

/-- A repetition derives the words of the item one behind the other, as often as the bounds say. -/
theorem repetition_language {P : Parser} {m : Nat} {n : Option Nat} (h : P.WF) (hs : P.Split rule k)
    (hflat : Flat (rule.drop k)) (hmn : ∀ b ∈ n, m ≤ b)
    (hr : P.handleRepetitions ruleName rule k m (maxOf n) = some (P', rule')) {G : Rules}
    (hG : ∀ id, P.count ≤ id → id < P'.count → G.rule id = P'.ruleAt id) :
    ∃ item, rule' = rule.take k ++ item ∧ ∀ w, w ∈ Cfg.language G.alts (symbols item) ↔
      ∃ j, InRange m n j ∧ w ∈ Cfg.language G.alts (symbols (rule.drop k)) ^ j := by
  obtain ⟨_, hnames, hrules, hrule⟩ := Parser.handleRepetitions_eq h hs hr
  generalize hN : (if maxOf n < 0 then 1 else maxOf n - m).toNat = N at hnames hrules hrule
  have hcount : P'.count = P.count + N := by
    rw [Parser.count, hnames, List.length_append, List.length_map, List.length_range']
    rfl
  have halts (j : Nat) (hj : j < N) : G.alts (P.count + j) =
      {symbols (rule.drop k) ++ symbols (Parser.recRef (maxOf n) P.count j), []} := by
    have hrule := hG (P.count + j) (by omega) (by omega)
    rw [hrules, if_pos (by omega), Nat.add_sub_cancel_left] at hrule
    rw [alts_optional hrule (hflat.append (flat_recRef _ _ _)),
      symbols_append hflat (not_modifier_of_tidy (Parser.tidy_recRef _ _ _))]
  have hmin : (if (m : Int) = 0 then [] else
      (List.replicate (((m : Int) - 1).toNat + 1) (rule.drop k)).flatten) =
        (List.replicate m (rule.drop k)).flatten := by
    split
    case isTrue hm =>
      obtain rfl : m = 0 := Int.ofNat_eq_zero.1 hm
      rfl
    case isFalse hm =>
      congr 2
      omega
  rw [hmin] at hrule
  refine ⟨_, hrule, fun w => ?_⟩
  have htail : isModifier (head (if 0 < N then
      [(⟨.RULE_REF, P.count + N - 1⟩ : Element)] else [])) = false := by
    split <;> rfl
  rw [symbols_append (hflat.flatten m) htail, symbols_flatten hflat hs.item, Cfg.language_append,
    Cfg.language_replicate]
  generalize symbols (rule.drop k) = ss at halts ⊢
  cases n with
  | none =>
    obtain rfl : N = 1 := hN.symm
    have hstar : G.alts P.count = {ss ++ [.ref P.count], []} := halts 0 Nat.zero_lt_one
    have hrange (w : List Nat) : w ∈ Cfg.language G.alts (symbols (if 0 < 1 then
        [(⟨.RULE_REF, P.count + 1 - 1⟩ : Element)] else [])) ↔
          ∃ j, True ∧ w ∈ Cfg.language G.alts ss ^ j := by
      rw [if_pos Nat.zero_lt_one]
      change w ∈ Cfg.language G.alts [.ref P.count] ↔ _
      rw [Cfg.language_star hstar, mem_kstar_iff_pow]
      simp only [true_and]
    rw [Cfg.mem_pow_mul hrange]
    constructor
    · rintro ⟨j, _, hw⟩
      exact ⟨m + j, ⟨Nat.le_add_right m j, fun b hb => by cases hb⟩, hw⟩
    · rintro ⟨j, hj, hw⟩
      exact ⟨j - m, trivial, by rwa [Nat.add_sub_cancel' hj.1]⟩
  | some b =>
    have hmb := hmn b rfl
    have hb : ¬ maxOf (some b) < 0 := by
      rw [maxOf, Option.elim_some]
      omega
    rw [if_neg hb] at hN
    have hNb : N = b - m := by
      rw [← hN, maxOf, Option.elim_some]
      omega
    have hrange (w : List Nat) : w ∈ Cfg.language G.alts (symbols (if 0 < N then
        [(⟨.RULE_REF, P.count + N - 1⟩ : Element)] else [])) ↔
          ∃ j, j ≤ N ∧ w ∈ Cfg.language G.alts ss ^ j := by
      cases N with
      | zero =>
        rw [if_neg (Nat.lt_irrefl 0)]
        change w ∈ Cfg.language G.alts [] ↔ _
        rw [Cfg.language_nil]
        constructor
        · exact fun hw => ⟨0, Nat.le_refl 0, by rwa [pow_zero]⟩
        · rintro ⟨j, hj, hw⟩
          rwa [Nat.le_zero.1 hj, pow_zero] at hw
      | succ N =>
        rw [if_pos (Nat.succ_pos N)]
        change w ∈ Cfg.language G.alts [.ref (P.count + N)] ↔ _
        refine Cfg.mem_language_optional (fun i => P.count + i) ?_ fun i hi => ?_
        · rw [halts 0 (Nat.succ_pos N), Parser.recRef, if_neg (by omega)]
          exact congrArg (fun l => ({l, []} : Set _)) (List.append_nil ss)
        · rw [halts (i + 1) (by omega), Parser.recRef, if_pos (by omega), if_neg hb]
          rfl
    rw [Cfg.mem_pow_mul hrange]
    constructor
    · rintro ⟨j, hj, hw⟩
      refine ⟨m + j, ⟨Nat.le_add_right m j, fun b' hb' => ?_⟩, hw⟩
      cases hb'
      omega
    · rintro ⟨j, hj, hw⟩
      have hjb := hj.2 b rfl
      exact ⟨j - m, by omega, by rwa [Nat.add_sub_cancel' hj.1]⟩

end ActQuant.Grammar
