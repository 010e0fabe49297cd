import ActQuant.Grammar.Repetition

namespace ActQuant.Grammar
open Lib

/-! The operators `*`, `+`, `?` and `\x7b m,n \x7d`, and the numbers in them. -/

namespace Parser

/-! ### Bounds -/

/-- The number that digits stand for. -/
def decimal (digits : Text) : Nat := digits.foldl (fun n c => n * 10 + (c - byte '0')) 0

/-- The bounds behind the brace, as numbers of any size. -/
def boundsAt (isNested : Bool) (src : Text) : Option (Nat × Option Nat × Text) :=
  (parseInt (parseSpace isNested false src)).bind fun low =>
    let pos := parseSpace isNested false low.2
    if peek pos = byte '\x7d' then
      some (decimal low.1, some (decimal low.1), parseSpace isNested false pos.tail)
    else if peek pos = byte ',' then
      let pos := parseSpace isNested false pos.tail
      if isDigitChar (peek pos) then
        (parseInt pos).bind fun high =>
          let pos := parseSpace isNested false high.2
          if peek pos = byte '\x7d' then
            some (decimal low.1, some (decimal high.1), parseSpace isNested false pos.tail)
          else none
      else if peek pos = byte '\x7d' then
        some (decimal low.1, none, parseSpace isNested false pos.tail)
      else none
    else none

/-- The repetitions that an operator asks for. -/
def operatorAt (isNested : Bool) (src : Text) : Option (Nat × Option Nat) :=
  if peek src = byte '*' then some (0, none)
  else if peek src = byte '+' then some (1, none)
  else if peek src = byte '?' then some (0, some 1)
  else if peek src = byte '\x7b' then (boundsAt isNested src.tail).map fun r => (r.1, r.2.1)
  else none

/-- Bounds that an `int` holds. -/
def Fits (m : Nat) (n : Option Nat) : Prop := m < 2 ^ 31 ∧ ∀ b ∈ n, b < 2 ^ 31

/-- A bound that no `unsigned long` holds. -/
def Overflows (m : Nat) (n : Option Nat) : Prop := 2 ^ 64 ≤ m ∨ ∃ b ∈ n, 2 ^ 64 ≤ b

/-- A number as `std::stoul` gives it to an `int`. -/
def intOf (n : Nat) : Option Int := if n < 2 ^ 64 then some ((n : Int).bmod (2 ^ 32)) else none

def highOf (n : Option Nat) : Option Int := n.elim (some (-1)) intOf

theorem stoulInt_eq (digits : Text) : stoulInt digits = intOf (decimal digits) := rfl

theorem intOf_eq {n : Nat} (h : n < 2 ^ 31) : intOf n = some (n : Int) := by
  rw [intOf, if_pos (by omega)]
  exact congrArg some (Int.bmod_eq_of_le (by omega) (by omega))

/-- The bounds as the parser has them. -/
theorem parseBounds_eq (isNested : Bool) (src : Text) : parseBounds isNested src =
    (boundsAt isNested src).bind fun r => (intOf r.1).bind fun low =>
      (highOf r.2.1).bind fun high => some (low, high, r.2.2) := by
  rw [parseBounds, boundsAt, Option.bind_assoc]
  congr 1
  funext low
  rw [stoulInt_eq]
  dsimp only
  by_cases hclose : peek (parseSpace isNested false low.2) = byte '\x7d'
  · simp only [if_pos hclose, Option.bind_some]
    cases hlow : intOf (decimal low.1) with
    | none => rfl
    | some x =>
      rw [Option.bind_some, Option.bind_some, highOf, Option.elim_some, hlow]
      rfl
  simp only [if_neg hclose]
  by_cases hcomma : peek (parseSpace isNested false low.2) = byte ','
  · simp only [if_pos hcomma]
    generalize parseSpace isNested false (parseSpace isNested false low.2).tail = pos
    by_cases hdigit : isDigitChar (peek pos) = true
    · simp only [if_pos hdigit, Option.bind_assoc]
      cases hhigh : parseInt pos with
      | none => cases intOf (decimal low.1) <;> rfl
      | some high =>
        simp only [Option.bind_some, stoulInt_eq]
        by_cases hend : peek (parseSpace isNested false high.2) = byte '\x7d'
        · simp only [if_pos hend, Option.bind_some]
          rfl
        · simp only [if_neg hend, Option.bind_none, Option.bind_fun_none]
    · simp only [if_neg hdigit]
      by_cases hend : peek pos = byte '\x7d'
      · simp only [if_pos hend, Option.bind_some]
        rfl
      · simp only [if_neg hend, Option.bind_none, Option.bind_fun_none]
  · simp only [if_neg hcomma, Option.bind_none, Option.bind_fun_none]

theorem intOf_eq_none {n : Nat} : intOf n = none ↔ 2 ^ 64 ≤ n := by
  rw [intOf, ← Nat.not_lt]
  by_cases h : n < 2 ^ 64
  · rw [if_pos h]
    exact iff_of_false (fun h => nomatch h) (not_not_intro h)
  · rw [if_neg h]
    exact iff_of_true rfl h

/-- An operator is applied with the numbers it spells, if these fit. -/
theorem operate_eq (s : SequenceState) (ruleName : Text)
    (h : operatorAt isNested s.pos = some (m, n)) :
    (Overflows m n → s.operate ruleName isNested = none) ∧
      (¬ Overflows m n → ∃ low high pos, s.operate ruleName isNested =
        s.repeated ruleName low high pos ∧ (Fits m n → low = m ∧ high = maxOf n)) := by
  have hsmall {m : Nat} {n : Option Nat} (hm : m < 2 ^ 64) (hn : ∀ b ∈ n, b < 2 ^ 64) :
      ¬ Overflows m n := by
    rintro (h | ⟨b, hb, h⟩)
    · omega
    · have hlt := hn b hb
      omega
  rw [operatorAt] at h
  rw [SequenceState.operate]
  split at h
  case isTrue hc =>
    cases h
    rw [if_pos hc]
    exact ⟨fun hover => absurd hover (hsmall (by decide) (fun b hb => by cases hb)),
      fun _ => ⟨_, _, _, rfl, fun _ => ⟨rfl, rfl⟩⟩⟩
  rename_i hstar
  split at h
  case isTrue hc =>
    cases h
    rw [if_neg hstar, if_pos hc]
    exact ⟨fun hover => absurd hover (hsmall (by decide) (fun b hb => by cases hb)),
      fun _ => ⟨_, _, _, rfl, fun _ => ⟨rfl, rfl⟩⟩⟩
  rename_i hplus
  split at h
  case isTrue hc =>
    cases h
    rw [if_neg hstar, if_neg hplus, if_pos hc]
    exact ⟨fun hover => absurd hover (hsmall (by decide) (fun b hb => by cases hb; decide)),
      fun _ => ⟨_, _, _, rfl, fun _ => ⟨rfl, rfl⟩⟩⟩
  rename_i hopt
  split at h
  case isTrue hc =>
    obtain ⟨⟨m', n', pos⟩, hbounds, h⟩ := Option.map_eq_some_iff.1 h
    cases h
    rw [if_neg hstar, if_neg hplus, if_neg hopt, if_pos hc, parseBounds_eq, hbounds]
    dsimp only [Option.bind_some]
    cases hlow : intOf m' with
    | none => exact ⟨fun _ => rfl, fun hno => absurd (.inl (intOf_eq_none.1 hlow)) hno⟩
    | some low =>
      cases hhigh : highOf n' with
      | none =>
        refine ⟨fun _ => rfl, fun hno => absurd (.inr ?_) hno⟩
        cases n' with
        | none => cases hhigh
        | some b => exact ⟨b, rfl, intOf_eq_none.1 hhigh⟩
      | some high =>
        constructor
        · rintro (hover | ⟨b, hb, hover⟩)
          · rw [intOf_eq_none.2 hover] at hlow
            cases hlow
          · cases hb
            rw [highOf, Option.elim_some, intOf_eq_none.2 hover] at hhigh
            cases hhigh
        · refine fun _ => ⟨low, high, pos, rfl, fun hfits => ?_⟩
          rw [intOf_eq hfits.1] at hlow
          cases hlow
          cases n' with
          | none =>
            cases hhigh
            exact ⟨rfl, rfl⟩
          | some b =>
            rw [highOf, Option.elim_some, intOf_eq (hfits.2 b rfl)] at hhigh
            cases hhigh
            exact ⟨rfl, rfl⟩
  case isFalse => cases h

/-- An operator is taken as one in the loop over the items. -/
theorem itemStep_operate (s : SequenceState) (ruleName : Text) (fuel : Nat)
    (h : operatorAt isNested s.pos = some (m, n)) : startsItem (peek s.pos) = true ∧
      itemStep ruleName isNested fuel s = s.operate ruleName isNested := by
  have hop : peek s.pos = byte '*' ∨ peek s.pos = byte '+' ∨ peek s.pos = byte '?' ∨
      peek s.pos = byte '\x7b' := by
    rw [operatorAt] at h
    by_contra hnot
    simp only [not_or] at hnot
    rw [if_neg hnot.1, if_neg hnot.2.1, if_neg hnot.2.2.1, if_neg hnot.2.2.2] at h
    cases h
  have hno {c : Nat} (hc : c = byte '*' ∨ c = byte '+' ∨ c = byte '?' ∨ c = byte '\x7b') :
      startsItem c = true ∧ c ≠ quote ∧ c ≠ byte '[' ∧ isWordChar c = false ∧ c ≠ byte '(' ∧
        c ≠ byte '.' := by
    rcases hc with rfl | rfl | rfl | rfl <;> decide
  obtain ⟨hstart, hquote, hclass, hword, hgroup, hany⟩ := hno hop
  refine ⟨hstart, ?_⟩
  rw [itemStep]
  dsimp only
  rw [if_neg hquote, if_neg hclass, if_neg (by rw [hword]; decide), if_neg hgroup, if_neg hany]

/-! ### Repetitions -/

theorem repeated_eq_none (s : SequenceState) (hs : Good s) (ruleName : Text)
    (minTimes maxTimes : Int) (pos : Text) :
    s.repeated ruleName minTimes maxTimes pos = none ↔ s.item = [] := by
  rw [SequenceState.repeated, Option.map_eq_none_iff, handleRepetitions, SequenceState.item,
    List.drop_eq_nil_iff]
  have hle := hs.2.le
  split
  case isTrue h => exact iff_of_true rfl (by omega)
  case isFalse h => exact iff_of_false (Option.some_ne_none _) (by omega)

theorem repeated_generated (hs : Good s)
    (h : s.repeated ruleName minTimes maxTimes pos = some s') {id : Nat}
    (hid : s.parser.count ≤ id) (hid' : id < s'.parser.count) : s'.parser.IsGenerated id := by
  obtain ⟨⟨P, rule⟩, hr, rfl⟩ := Option.map_eq_some_iff.1 h
  obtain ⟨_, hnames, _, _⟩ := handleRepetitions_eq hs.1 hs.2 hr
  dsimp only at hid' ⊢
  rw [count, hnames, List.length_append, List.length_map, List.length_range'] at hid'
  refine ⟨ruleName, id, ?_⟩
  rw [hnames]
  exact List.mem_append_right _ (List.mem_map.2 ⟨id, List.mem_range'_1.2 ⟨hid, hid'⟩, rfl⟩)

theorem operate_generated (hs : Good s) (h : s.operate ruleName isNested = some s') {id : Nat}
    (hid : s.parser.count ≤ id) (hid' : id < s'.parser.count) : s'.parser.IsGenerated id := by
  rw [SequenceState.operate] at h
  split at h
  · exact repeated_generated hs h hid hid'
  split at h
  · exact repeated_generated hs h hid hid'
  split at h
  · exact repeated_generated hs h hid hid'
  split at h
  · obtain ⟨r, -, h⟩ := Option.bind_eq_some_iff.1 h
    exact repeated_generated hs h hid hid'
  · cases h

/-- What an operator promises: where the numbers fit, its item stands in the grammar for the words
of the item before it one behind the other, as often as the bounds say; where they do not, there is
an exception. -/
def RepeatsRight (fuel : Nat) (src ruleName : Text) (isNested : Bool) (s : SequenceState) (m : Nat)
    (n : Option Nat) : Prop :=
  (Fits m n → ∀ s' grammarRoot rules start (G : Rules), s.operate ruleName isNested = some s' →
    readGrammar fuel src grammarRoot = some (rules, start) → G.rules = rules →
      s'.rule = s.rule.take s.lastSymStart ++ s'.item ∧
        (∀ after, isModifier (head after) = false →
          symbols (s'.item ++ after) = symbols s'.item ++ symbols after) ∧
        ∀ w, w ∈ Cfg.language G.alts (symbols s'.item) ↔
          ∃ k, InRange m n k ∧ w ∈ Cfg.language G.alts (symbols s.item) ^ k) ∧
    (¬ Fits m n → s.operate ruleName isNested = none)

/-- The rules an operator adds are those of the grammar. -/
theorem rules_of_operate (h : Called fuel src (.items ruleName isNested fuel' s))
    (hop : operatorAt isNested s.pos = some (m, n)) (hs' : s.operate ruleName isNested = some s')
    {rules : List (List Element)} {start : Nat}
    (hread : readGrammar fuel src grammarRoot = some (rules, start)) {G : Rules}
    (hG : G.rules = rules) :
    ∀ id, s.parser.count ≤ id → id < s'.parser.count → G.rule id = s'.parser.ruleAt id := by
  intro id hid hid'
  obtain ⟨P, hP, rfl, _⟩ := readGrammar_parse hread
  obtain ⟨hgood, hflat⟩ := h.sound
  obtain ⟨Q', hQ', hkeep⟩ := h.later hP
  obtain ⟨s₂, hs₂, rfl⟩ := Option.map_eq_some_iff.1 hQ'
  cases fuel' with
  | zero => cases hs₂
  | succ fuel' =>
    obtain ⟨hstart, hstep⟩ := itemStep_operate s ruleName fuel' hop
    rw [parseItems_succ, if_pos hstart, hstep, hs', Option.bind_some] at hs₂
    have hgood' := (operate_good hgood hs').1
    have hgrows := (parse_grows fuel').2.2 _ _ _ _ hgood' hs₂
    obtain ⟨base, k, hmem⟩ := operate_generated hgood hs' hid hid'
    rw [Rules.rule, hG]
    change P.ruleAt id = _
    rw [hkeep id hid (lt_of_lt_of_le hid' hgrows.count_le) ⟨base, k, hgrows.names.subset hmem⟩,
      hgrows.ruleAt_eq hid']

theorem repeated_right (hs : Good s) (hflat : Flat s.item) {m : Nat} {n : Option Nat}
    (hmn : ∀ b ∈ n, m ≤ b) (h : s.repeated ruleName m (maxOf n) pos = some s') {G : Rules}
    (hG : ∀ id, s.parser.count ≤ id → id < s'.parser.count →
      G.rule id = s'.parser.ruleAt id) :
    s'.rule = s.rule.take s.lastSymStart ++ s'.item ∧
      ∀ w, w ∈ Cfg.language G.alts (symbols s'.item) ↔
        ∃ k, InRange m n k ∧ w ∈ Cfg.language G.alts (symbols s.item) ^ k := by
  obtain ⟨⟨P, rule⟩, hr, rfl⟩ := Option.map_eq_some_iff.1 h
  obtain ⟨item, rfl, hlanguage⟩ := repetition_language hs.1 hs.2 hflat hmn hr hG
  have hlen : (s.rule.take s.lastSymStart).length = s.lastSymStart :=
    List.length_take_of_le hs.2.le
  have hitem : SequenceState.item ⟨P, s.rule.take s.lastSymStart ++ item, s.lastSymStart, pos⟩ =
      item := List.drop_left' hlen
  rw [hitem]
  exact ⟨rfl, hlanguage⟩

/-- An operator keeps its promise if its numbers are below `2 ^ 31`, if one of them is `2 ^ 64` or
more, and if there is no item before it. -/
theorem repetitions_iff (h : Called fuel src (.items ruleName isNested fuel' s))
    (hop : operatorAt isNested s.pos = some (m, n)) (hmn : ∀ b ∈ n, m ≤ b) :
    RepeatsRight fuel src ruleName isNested s m n ↔ s.item = [] ∨ Fits m n ∨ Overflows m n := by
  obtain ⟨hgood, hflat⟩ := h.sound
  obtain ⟨hover, hno⟩ := operate_eq s ruleName hop
  constructor
  · rintro ⟨_, hreject⟩
    by_cases hfits : Fits m n
    · exact .inr (.inl hfits)
    by_cases hoverflows : Overflows m n
    · exact .inr (.inr hoverflows)
    obtain ⟨low, high, pos, heq, _⟩ := hno hoverflows
    have hnone := hreject hfits
    rw [heq, repeated_eq_none s hgood] at hnone
    exact .inl hnone
  · intro hcond
    have hnone (hitem : s.item = [] ∨ Overflows m n) : s.operate ruleName isNested = none := by
      by_cases hoverflows : Overflows m n
      · exact hover hoverflows
      · obtain ⟨low, high, pos, heq, _⟩ := hno hoverflows
        rw [heq, repeated_eq_none s hgood]
        exact hitem.resolve_right hoverflows
    refine ⟨fun hfits s' grammarRoot rules start G hs' hread hG => ?_, fun hfits => ?_⟩
    · have hno' : ¬ Overflows m n := by
        rintro (h | ⟨b, hb, h⟩)
        · exact absurd hfits.1 (by omega)
        · exact absurd (hfits.2 b hb) (by omega)
      obtain ⟨low, high, pos, heq, hbounds⟩ := hno hno'
      obtain ⟨rfl, rfl⟩ := hbounds hfits
      obtain ⟨hrule, hlanguage⟩ := repeated_right hgood hflat hmn (heq.symm.trans hs')
        (rules_of_operate h hop hs' hread hG)
      exact ⟨hrule, fun after hafter => symbols_append (operate_flat hgood hflat hs') hafter,
        hlanguage⟩
    · refine hnone ?_
      rcases hcond with hitem | hfits' | hoverflows
      · exact .inl hitem
      · exact absurd hfits' hfits
      · exact .inr hoverflows

/-! ### Two texts -/

def rootName : Text := "root".toList.map byte

/-- The rule `root ::= "a"` with an operator behind the literal. -/
def literalText (operator : Text) : Text := "root ::= \"a\"".toList.map byte ++ operator

/-- The turn in which the operator is the next item. -/
def literalState (operator : Text) : SequenceState :=
  ⟨⟨[(.word rootName, 0)], []⟩, [⟨.CHAR, 97⟩], 0, operator⟩

theorem parseLiteral_a (operator : Text) :
    parseLiteral 26 [] (97 :: 34 :: operator) = some ([⟨.CHAR, 97⟩], operator) := by
  have hpeek : peek (97 :: 34 :: operator) = 97 := rfl
  have hutf8 : decodeUtf8 (97 :: 34 :: operator) = (97, 34 :: operator) := by
    rw [decodeUtf8, hpeek]
    rfl
  have hchar : parseChar (97 :: 34 :: operator) = some (97, 34 :: operator) := by
    rw [parseChar, hpeek, hutf8]
    rfl
  rw [parseLiteral, hchar, hpeek]
  rfl

theorem literal_called (operator : Text) (hspace : parseSpace false false operator = operator) :
    Called 30 (literalText operator) (.items rootName false 26 (literalState operator)) := by
  have hstart : RulesAt 30 (literalText operator) (29 + 1) ⟨[], []⟩ (literalText operator) := .start
  have hname : parseName (literalText operator) =
      some (rootName, " ::= \"a\"".toList.map byte ++ operator) := rfl
  have htop : TopCall 30 (literalText operator) (.alternates rootName false 0 29
      ⟨[(.word rootName, 0)], []⟩ ("\"a\"".toList.map byte ++ operator)) :=
    .rule hstart (show byte 'r' ≠ 0 by decide) hname
  have hitem : itemStep rootName false 26
      ⟨⟨[(.word rootName, 0)], []⟩, [], 0, "\"a\"".toList.map byte ++ operator⟩ =
        some (literalState operator) := by
    rw [itemStep]
    dsimp only
    rw [if_pos (show peek ("\"a\"".toList.map byte ++ operator) = quote from rfl)]
    change (parseLiteral 26 [] (97 :: 34 :: operator)).map _ = _
    rw [parseLiteral_a, Option.map_some, hspace]
    rfl
  exact ⟨_, htop, ((Relation.ReflTransGen.single (.sequence _ _ _ _ _ _)).tail
    (.first _ _ _ _ _ _)).tail (.next rfl hitem)⟩

/-- `"a"+`. -/
theorem repetitions_plus : RepeatsRight 30 (literalText [byte '+']) rootName false
    (literalState [byte '+']) 1 none :=
  (repetitions_iff (literal_called [byte '+'] rfl) rfl (fun b hb => by cases hb)).2
    (.inr (.inl ⟨by decide, fun b hb => by cases hb⟩))

/-- `{4294967296}`. -/
def wrappedBounds : Text := "\x7b4294967296\x7d".toList.map byte

/-- So many `a` become none at all, without an exception. -/
theorem repetitions_wrap :
    Called 30 (literalText wrappedBounds) (.items rootName false 26 (literalState wrappedBounds)) ∧
      operatorAt false wrappedBounds = some (2 ^ 32, some (2 ^ 32)) ∧
      (∃ s', (literalState wrappedBounds).operate rootName false = some s' ∧ s'.rule = []) ∧
      ¬ RepeatsRight 30 (literalText wrappedBounds) rootName false (literalState wrappedBounds)
        (2 ^ 32) (some (2 ^ 32)) := by
  have hrule : ((literalState wrappedBounds).operate rootName false).map (fun s => s.rule) =
      some [] := by decide
  obtain ⟨s', hs', hnil⟩ := Option.map_eq_some_iff.1 hrule
  refine ⟨literal_called wrappedBounds (by decide), by decide, ⟨s', hs', hnil⟩, ?_⟩
  rintro ⟨_, hreject⟩
  have hnone := hreject fun hfits => absurd hfits.1 (by decide)
  rw [hs'] at hnone
  cases hnone

end Parser

end ActQuant.Grammar
