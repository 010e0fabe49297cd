import ActQuant.Grammar.RuleTexts

namespace ActQuant.Grammar
open Lib

/-! Grammars as tables of rules: the text of a table is read, and its rules stand for what their
texts say. -/

namespace Parser

/-! ### Nothing is left out -/

/-- No word has two numbers. -/
def Distinct (P : Parser) : Prop :=
  ∀ name id id', (SymbolName.word name, id) ∈ P.symbolIds →
    (SymbolName.word name, id') ∈ P.symbolIds → id = id'

/-- Each number that was added is that of a word, or its rule is there. -/
structure Filled (P Q : Parser) : Prop where
  distinct : P.Distinct → Q.Distinct
  rules : ∀ id, P.count ≤ id → id < Q.count →
    (∃ name, (SymbolName.word name, id) ∈ Q.symbolIds) ∨ Q.ruleAt id ≠ []
  length : P.rules.length ≤ P.count → Q.rules.length ≤ Q.count

/-- More names of groups and repetitions. -/
theorem Distinct.generated {P Q : Parser} {base : Text} {ids : List Nat} (h : P.Distinct)
    (hnames : Q.symbolIds = P.symbolIds ++ ids.map fun id : Nat => (.generated base id, id)) :
    Q.Distinct := by
  have hold (name : Text) (id : Nat) (hmem : (SymbolName.word name, id) ∈ Q.symbolIds) :
      (SymbolName.word name, id) ∈ P.symbolIds := by
    rw [hnames] at hmem
    rcases List.mem_append.1 hmem with hmem | hmem
    · exact hmem
    · obtain ⟨_, _, heq⟩ := List.mem_map.1 hmem
      cases heq
  exact fun name id id' hmem hmem' => h name id id' (hold name id hmem) (hold name id' hmem')

theorem Distinct.lookup {P : Parser} {name : Text} {id : Nat} (h : P.Distinct)
    (hmem : (SymbolName.word name, id) ∈ P.symbolIds) :
    P.lookup (.word name) = some id := by
  rw [Parser.lookup]
  cases hl : P.symbolIds.lookup (.word name) with
  | none => exact absurd (List.lookup_eq_none_iff.1 hl _ hmem) (by simp)
  | some id' =>
    obtain ⟨l₁, l₂, hsplit, -⟩ := List.lookup_eq_some_iff.1 hl
    have hmem' : (SymbolName.word name, id') ∈ P.symbolIds := by
      rw [hsplit]
      exact List.mem_append_right _ List.mem_cons_self
    rw [h name id' id hmem' hmem]

theorem Filled.refl (P : Parser) : Filled P P :=
  ⟨fun h => h, fun _ hid hid' => absurd hid' (Nat.not_lt.2 hid), fun h => h⟩

theorem Filled.trans (h : Filled P Q) (h' : Filled Q R) (hgrows : Grows none Q R) :
    Filled P R := by
  constructor
  case distinct => exact fun hdistinct => h'.distinct (h.distinct hdistinct)
  case rules =>
    intro id hid hid'
    by_cases hold : id < Q.count
    · rcases h.rules id hid hold with ⟨name, hmem⟩ | hne
      · exact .inl ⟨name, hgrows.names.subset hmem⟩
      · right
        rwa [hgrows.ruleAt_eq hold]
    · exact h'.rules id (Nat.le_of_not_lt hold) hid'
  case length => exact fun hle => h'.length (h.length hle)

theorem getSymbolId_filled (P : Parser) (name : Text) : Filled P (P.getSymbolId name).2 := by
  rw [getSymbolId]
  cases hl : P.lookup (.word name) with
  | some id => exact .refl P
  | none =>
    have hcount : count { P with symbolIds := P.symbolIds ++ [(.word name, P.symbolIds.length)] } =
        P.count + 1 := List.length_append
    constructor
    case distinct =>
      intro hdistinct name' id id' hmem hmem'
      have hnew (id : Nat) : (SymbolName.word name, id) ∉ P.symbolIds :=
        fun hmem => absurd (List.lookup_eq_none_iff.1 hl _ hmem) (by simp)
      rcases List.mem_append.1 hmem with hmem | hmem
      · rcases List.mem_append.1 hmem' with hmem' | hmem'
        · exact hdistinct name' id id' hmem hmem'
        · cases List.mem_singleton.1 hmem'
          exact absurd hmem (hnew id)
      · cases List.mem_singleton.1 hmem
        rcases List.mem_append.1 hmem' with hmem' | hmem'
        · exact absurd hmem' (hnew id')
        · cases List.mem_singleton.1 hmem'
          rfl
    case rules =>
      intro id hid hid'
      rw [hcount] at hid'
      obtain rfl : id = P.symbolIds.length := Nat.le_antisymm (Nat.le_of_lt_succ hid') hid
      exact .inl ⟨name, List.mem_append_right _ (List.mem_singleton.2 rfl)⟩
    case length =>
      intro hle
      rw [hcount]
      exact Nat.le_succ_of_le hle

theorem handleRepetitions_filled {P : Parser} (h : P.WF) (hs : P.Split rule k)
    (hr : P.handleRepetitions ruleName rule k minTimes maxTimes = some (P', rule')) :
    Filled P P' := by
  obtain ⟨hne, hnames, hrules, _⟩ := handleRepetitions_eq h hs hr
  constructor
  case distinct => exact fun hdistinct => hdistinct.generated hnames
  case rules =>
    intro id hid hid'
    rw [count, hnames, List.length_append, List.length_map, List.length_range'] at hid'
    right
    rw [hrules, if_pos ⟨hid, hid'⟩, List.append_assoc]
    exact List.append_ne_nil_of_left_ne_nil hne _
  case length =>
    intro hle
    have hitem : P.Named (rule.drop k) := hs.named.sub fun e he => List.mem_of_mem_drop he
    rw [handleRepetitions] at hr
    split at hr
    case isTrue => cases hr
    case isFalse =>
      obtain ⟨rfl, -⟩ := Prod.mk.inj (Option.some.inj hr)
      exact (addRecRules_eq ruleName maxTimes hs.item P.count _ 0 0 h hitem rfl
        (fun h => absurd h (Nat.lt_irrefl 0)) fun h => absurd h (Nat.lt_irrefl 0)).2.2.2 hle

theorem repeated_filled (hs : Good s) (h : s.repeated ruleName minTimes maxTimes pos = some s') :
    Filled s.parser s'.parser := by
  obtain ⟨⟨P, rule⟩, hr, rfl⟩ := Option.map_eq_some_iff.1 h
  exact handleRepetitions_filled hs.1 hs.2 hr

theorem operate_filled (hs : Good s) (h : s.operate ruleName isNested = some s') :
    Filled s.parser s'.parser := by
  rw [SequenceState.operate] at h
  split at h
  · exact repeated_filled hs h
  split at h
  · exact repeated_filled hs h
  split at h
  · exact repeated_filled hs h
  split at h
  · obtain ⟨r, -, h⟩ := Option.bind_eq_some_iff.1 h
    exact repeated_filled hs h
  · cases h

theorem addRule_filled {P Q : Parser} {id : Nat} (h : Filled P Q) (hid : id < Q.count)
    (hne : rule ≠ []) : Filled P (Q.addRule id rule) ∧ (Q.addRule id rule).ruleAt id ≠ [] := by
  refine ⟨⟨h.distinct, fun id' hid' hlt => ?_, fun hle => ?_⟩, ?_⟩
  · rcases h.rules id' hid' hlt with hword | hrule
    · exact .inl hword
    · right
      rw [ruleAt_addRule]
      split
      case isTrue => exact hne
      case isFalse => exact hrule
  · rw [length_addRule, count_addRule]
    exact Nat.max_le.2 ⟨h.length hle, hid⟩
  · rwa [ruleAt_addRule, if_pos rfl]

theorem Filled.ofGenerated {P Q : Parser} (h : Filled (P.generated base) Q)
    (hown : Q.ruleAt P.count ≠ []) : Filled P Q := by
  have hcount := count_generated P base
  constructor
  case distinct =>
    have hnames : (P.generated base).symbolIds =
        P.symbolIds ++ [P.count].map fun id => (.generated base id, id) := rfl
    exact fun hdistinct => h.distinct (hdistinct.generated hnames)
  case rules =>
    intro id hid hid'
    by_cases hnew : id = P.count
    · exact .inr (hnew ▸ hown)
    · exact h.rules id (by omega) hid'
  case length =>
    intro hle
    apply h.length
    rw [hcount]
    exact Nat.le_succ_of_le hle

theorem itemStep_filled
    (halternates : ∀ ruleName isNested ruleId P src P' pos, P.WF → ruleId < P.count →
      parseAlternates ruleName isNested ruleId fuel P src = some (P', pos) →
        Filled P P' ∧ P'.ruleAt ruleId ≠ [])
    (hs : Good s) (h : itemStep ruleName isNested fuel s = some s') :
    Filled s.parser s'.parser := by
  rw [itemStep] at h
  dsimp only at h
  split at h
  · obtain ⟨r, -, rfl⟩ := Option.map_eq_some_iff.1 h
    exact .refl _
  split at h
  · obtain ⟨r, -, rfl⟩ := Option.map_eq_some_iff.1 h
    exact .refl _
  split at h
  · obtain ⟨name, -, rfl⟩ := Option.map_eq_some_iff.1 h
    exact getSymbolId_filled _ _
  split at h
  · rw [generateSymbolId_eq hs.1 ruleName] at h
    obtain ⟨r, hr, h⟩ := Option.bind_eq_some_iff.1 h
    split at h
    case isTrue =>
      cases h
      have hlt : s.parser.count < (s.parser.generated ruleName).count := by
        rw [count_generated]
        exact Nat.lt_succ_self _
      obtain ⟨hfilled, hown⟩ := halternates _ _ _ _ _ _ _ (hs.1.generated ruleName) hlt hr
      exact hfilled.ofGenerated hown
    case isFalse => cases h
  split at h
  · cases h
    exact .refl _
  · exact operate_filled hs h

/-- What a call leaves behind. -/
theorem parse_filled (fuel : Nat) :
    (∀ ruleName isNested ruleId P src P' pos, P.WF → ruleId < P.count →
      parseAlternates ruleName isNested ruleId fuel P src = some (P', pos) →
        Filled P P' ∧ P'.ruleAt ruleId ≠ []) ∧
    (∀ ruleName isNested P rule src s, P.WF → Tidy rule → P.Named rule →
      parseSequences ruleName isNested fuel P rule src = some s → Filled P s.parser) ∧
    ∀ ruleName isNested s s', Good s → parseItems ruleName isNested fuel s = some s' →
      Filled s.parser s'.parser := by
  induction fuel with
  | zero =>
    refine ⟨?_, ?_, ?_⟩
    · intro _ _ _ _ _ _ _ _ _ h
      cases h
    · intro _ _ _ _ _ _ _ _ _ h
      cases h
    · intro _ _ _ _ _ h
      cases h
  | succ fuel ih =>
    obtain ⟨ihalternates, ihsequences, ihitems⟩ := ih
    refine ⟨?_, ?_, ?_⟩
    · intro ruleName isNested ruleId P src P' pos hP hid h
      rw [parseAlternates] at h
      obtain ⟨s, hs, h⟩ := Option.map_eq_some_iff.1 h
      obtain ⟨rfl, -⟩ := Prod.mk.inj h
      have hgrows := (parse_grows fuel).2.1 _ _ _ _ _ _ hP tidy_nil (named_nil _) hs
      exact addRule_filled (ihsequences _ _ _ _ _ _ hP tidy_nil (named_nil _) hs)
        (lt_of_lt_of_le hid hgrows.count_le)
        (List.append_ne_nil_of_right_ne_nil _ (List.cons_ne_nil _ _))
    · intro ruleName isNested P rule src s hP htidy hnamed h
      rw [parseSequences] at h
      obtain ⟨s₁, hs₁, h⟩ := Option.bind_eq_some_iff.1 h
      have hstart : Good ⟨P, rule, rule.length, src⟩ := ⟨hP, split_end htidy hnamed⟩
      have hfirst := ihitems _ _ _ _ hstart hs₁
      split at h
      case isTrue =>
        obtain ⟨hwf, htidy', hnamed'⟩ := bar_good ((parse_step fuel).2.2 _ _ _ _ hstart hs₁).1
        exact hfirst.trans (ihsequences _ _ _ _ _ _ hwf htidy' hnamed' h)
          ((parse_grows fuel).2.1 _ _ _ _ _ _ hwf htidy' hnamed' h)
      case isFalse =>
        cases Option.some.inj h
        exact hfirst
    · intro ruleName isNested s s' hs h
      rw [parseItems_succ] at h
      split at h
      case isTrue =>
        obtain ⟨s₁, hs₁, h⟩ := Option.bind_eq_some_iff.1 h
        have hgood := (itemStep_good (parse_step fuel).1 hs hs₁).1
        exact (itemStep_filled ihalternates hs hs₁).trans (ihitems _ _ _ _ hgood h)
          ((parse_grows fuel).2.2 _ _ _ _ hgood h)
      case isFalse =>
        cases Option.some.inj h
        exact .refl _

/-! ### Lines -/

/-- A text that is read up to the end of its line, and the names it refers to. -/
structure IsLine (known : Text → Prop) (t : Text) : Prop where
  solid : ∀ rest, Solid (t ++ rest)
  read : ∀ ruleName (P : Parser) rest, P.WF → P.Numbered → ∃ fuel s,
    parseSequences ruleName false fuel P [] (t ++ byte '\n' :: rest) = some s ∧
      s.pos = byte '\n' :: rest ∧ ∀ name id, (SymbolName.word name, id) ∈ s.parser.symbolIds →
        (SymbolName.word name, id) ∈ P.symbolIds ∨ known name

theorem closes_line (rest : Text) : Closes false (byte '\n' :: rest) := ⟨rfl, rfl⟩

theorem IsAlternates.line (h : IsAlternates M t l) : IsLine (fun name => (M name).isSome) t := by
  refine ⟨h.solid, fun ruleName P rest hP hnum => ?_⟩
  obtain ⟨s, _, ⟨fuel, hsequences⟩, hpos, _, _, _, hknown, _⟩ :=
    h.read ruleName false P [] _ hP hnum tidy_nil (named_nil _) (closes_line rest)
  exact ⟨fuel, s, hsequences, hpos, hknown⟩

theorem IsLine.mono (h : IsLine known t) (hknown : ∀ name, known name → known' name) :
    IsLine known' t := by
  refine ⟨h.solid, fun ruleName P rest hP hnum => ?_⟩
  obtain ⟨fuel, s, hsequences, hpos, hnames⟩ := h.read ruleName P rest hP hnum
  exact ⟨fuel, s, hsequences, hpos, fun name id hid => (hnames name id hid).imp_right (hknown name)⟩

def defineText : Text := [byte ' ', byte ':', byte ':', byte '=', byte ' ']

/-- A line of `format_grammar`. -/
def ruleLine (rule : Text × Text) : Text := rule.1 ++ (defineText ++ (rule.2 ++ [byte '\n']))

def formatGrammar (rules : List (Text × Text)) : Text := rules.flatMap ruleLine

theorem solid_of_word (h : isWordChar (peek t) = true) : Solid t := by
  refine ⟨?_, ?_, ?_, ?_, ?_⟩
  all_goals
    intro hpeek
    rw [hpeek] at h
    cases h

theorem solid_formatGrammar {rules : List (Text × Text)} (h : ∀ rule ∈ rules, IsName rule.1) :
    Solid (formatGrammar rules) := by
  cases rules with
  | nil => decide
  | cons rule rules =>
    apply solid_of_word
    rw [formatGrammar, List.flatMap_cons, ruleLine, List.append_assoc]
    exact (h rule List.mem_cons_self).peek _

/-- The parser after a line, with the state behind its alternates. -/
def afterLine (P : Parser) (name : Text) (s : SequenceState) : Parser :=
  s.parser.addRule (P.getSymbolId name).1 (s.rule ++ [⟨.END, 0⟩])

theorem parseRule_line {P : Parser} (hname : IsName name) (hbody : ∀ rest, Solid (body ++ rest))
    (hrest : Solid rest)
    (hsequences : parseSequences name false fuel (P.getSymbolId name).2 []
      (body ++ byte '\n' :: rest) = some s) (hpos : s.pos = byte '\n' :: rest) :
    parseRule (fuel + 1) P (ruleLine (name, body) ++ rest) =
      some (P.afterLine name s, rest) := by
  have hline : ruleLine (name, body) ++ rest =
      name ++ (defineText ++ (body ++ byte '\n' :: rest)) := by
    simp [ruleLine]
  have hdefine : parseSpace false false (defineText ++ (body ++ byte '\n' :: rest)) =
      defineText.tail ++ (body ++ byte '\n' :: rest) :=
    (parseSpace_spaces false 1 _).trans (parseSpace_solid (solid_cons (by decide) _) false)
  have hstart : parseSpace true false
      ((defineText.tail ++ (body ++ byte '\n' :: rest)).drop 3) = body ++ byte '\n' :: rest :=
    (parseSpace_spaces true 1 _).trans (parseSpace_solid (hbody _) true)
  rw [parseRule, hline, hname.parseName (by rfl), Option.bind_some]
  dsimp only
  rw [hdefine, if_pos ⟨rfl, rfl, rfl⟩, hstart, parseAlternates, hsequences, Option.map_some,
    Option.bind_some]
  dsimp only
  have hnewline : ¬ peek (byte '\n' :: rest) = byte '\r' := show byte '\n' ≠ byte '\r' by decide
  rw [hpos, if_neg hnewline, if_pos (by rfl), List.tail_cons, parseSpace_solid hrest]
  rfl

theorem parseRule_mono {P : Parser} (h : parseRule fuel P src = some r) (hle : fuel ≤ fuel') :
    parseRule fuel' P src = some r := by
  rw [parseRule] at h ⊢
  obtain ⟨name, hname, h⟩ := Option.bind_eq_some_iff.1 h
  rw [hname, Option.bind_some]
  dsimp only at h ⊢
  split at h
  case isTrue hdefine =>
    obtain ⟨r', hr', h⟩ := Option.bind_eq_some_iff.1 h
    rw [if_pos hdefine, parseAlternates_mono hr' hle, Option.bind_some]
    exact h
  case isFalse => cases h

theorem parseRules_mono {P Q : Parser} (h : parseRules fuel P src = some Q) (hle : fuel ≤ fuel') :
    parseRules fuel' P src = some Q := by
  induction fuel generalizing fuel' P src with
  | zero => cases h
  | succ fuel ih =>
    cases fuel' with
    | zero => exact absurd hle (Nat.not_succ_le_zero _)
    | succ fuel' =>
      rw [parseRules] at h ⊢
      split at h
      case isTrue hend => rwa [if_pos hend]
      case isFalse hend =>
        obtain ⟨r, hr, h⟩ := Option.bind_eq_some_iff.1 h
        rw [if_neg hend, parseRule_mono hr (Nat.le_of_succ_le_succ hle), Option.bind_some]
        exact ih h (Nat.le_of_succ_le_succ hle)

/-- Two parses of a text end with the same parser. -/
theorem parse_unique {P Q : Parser} (h : parse fuel src = some P) (h' : parse fuel' src = some Q) :
    P = Q := by
  obtain ⟨P', hP, h⟩ := Option.bind_eq_some_iff.1 h
  obtain ⟨Q', hQ, h'⟩ := Option.bind_eq_some_iff.1 h'
  have hsame := (parseRules_mono hP (Nat.le_max_left fuel fuel')).symm.trans
    (parseRules_mono hQ (Nat.le_max_right fuel fuel'))
  cases Option.some.inj hsame
  exact Option.some.inj (h.symm.trans h')

/-! ### Tables -/

/-- The numbers of a state, from its names. -/
theorem Numbered.mem_of_lt {P Q : Parser} {name : SymbolName} {id : Nat} (hQ : Q.Numbered)
    (hpre : P.symbolIds <+: Q.symbolIds) (hmem : (name, id) ∈ Q.symbolIds) (hid : id < P.count) :
    (name, id) ∈ P.symbolIds := by
  obtain ⟨i, hi, hget⟩ := List.mem_iff_getElem.1 hmem
  have hplace : Q.symbolIds[i].2 = i := by
    have hmap : (Q.symbolIds.map fun kv => kv.2)[i]? = (List.range Q.count)[i]? := by rw [hQ]
    rw [List.getElem?_map, List.getElem?_eq_getElem hi,
      List.getElem?_range (show i < Q.count from hi)] at hmap
    exact Option.some.inj hmap
  rw [hget] at hplace
  obtain rfl : id = i := hplace
  rw [← hget, ← hpre.getElem hid]
  exact List.getElem_mem hid

theorem Numbered.name_unique {P : Parser} {name name' : SymbolName} {id : Nat} (h : P.Numbered)
    (hmem : (name, id) ∈ P.symbolIds) (hmem' : (name', id) ∈ P.symbolIds) : name = name' := by
  have hnodup : (P.symbolIds.map fun kv => kv.2).Nodup := by
    rw [h]
    exact List.nodup_range
  exact congrArg Prod.fst (List.inj_on_of_nodup_map hnodup hmem hmem' rfl)

theorem Numbered.lt {P : Parser} {name : SymbolName} {id : Nat} (h : P.Numbered)
    (hmem : (name, id) ∈ P.symbolIds) : id < P.count := by
  have hid : id ∈ P.symbolIds.map fun kv => kv.2 := List.mem_map_of_mem hmem
  rwa [h, List.mem_range] at hid

/-- A state between two rules. -/
structure Sound (P : Parser) : Prop where
  wf : P.WF
  numbered : P.Numbered
  distinct : P.Distinct
  length : P.rules.length ≤ P.count

theorem sound_empty : Sound ⟨[], []⟩ :=
  ⟨⟨fun _ h => (by cases h), fun _ _ _ h => (by cases h)⟩, rfl, fun _ _ _ h => (by cases h),
    Nat.le_refl _⟩

/-- What is known of a parser behind the lines of a table: its names, and the rules of the lines. -/
structure ReadTable (known : Text → Prop) (rules : List (Text × Text)) (P Q : Parser) : Prop where
  sound : Q.Sound
  names : P.symbolIds <+: Q.symbolIds
  known : ∀ name id, (SymbolName.word name, id) ∈ Q.symbolIds →
    (SymbolName.word name, id) ∈ P.symbolIds ∨ known name
  kept : ∀ id < P.count, (∀ name ∈ rules.map Prod.fst, (SymbolName.word name, id) ∉ P.symbolIds) →
    Q.ruleAt id = P.ruleAt id
  filled : ∀ id, P.count ≤ id → id < Q.count →
    (∃ name, (SymbolName.word name, id) ∈ Q.symbolIds) ∨ Q.ruleAt id ≠ []
  lines : ∀ name body, (name, body) ∈ rules → ∃ id,
    (SymbolName.word name, id) ∈ Q.symbolIds ∧ Q.ruleAt id ≠ [] ∧
      ∀ M l (G : Rules), IsAlternates M body l → G.rules = Q.rules →
        (∀ name id, (SymbolName.word name, id) ∈ Q.symbolIds →
          ∀ l ∈ M name, Cfg.language G.alts [.ref id] = l) → Cfg.language G.alts [.ref id] = l

/-- One line. -/
theorem afterLine_sound {P : Parser} (hP : P.Sound)
    (hsequences : parseSequences name false fuel (P.getSymbolId name).2 [] src = some s) :
    (P.afterLine name s).Sound ∧ Filled P (P.afterLine name s) ∧
      (P.afterLine name s).ruleAt (P.getSymbolId name).1 ≠ [] := by
  have hget := getSymbolId_grows P name
  have hwf := (getSymbolId_step hP.wf name).1.1
  have hgood := ((parse_step fuel).2.1 _ _ _ _ _ _ hwf tidy_nil (named_nil _) hsequences).1
  have hgrows := (parse_grows fuel).2.1 _ _ _ _ _ _ hwf tidy_nil (named_nil _) hsequences
  have hfilled := (getSymbolId_filled P name).trans
    ((parse_filled fuel).2.1 _ _ _ _ _ _ hwf tidy_nil (named_nil _) hsequences) hgrows
  have hid := lt_of_lt_of_le (getSymbolId_lt hP.numbered name).1 hgrows.count_le
  have hwf' := (addRule_step hgood.1 hgood.2.tidy hgood.2.named (P.getSymbolId name).1).1
  have hne : s.rule ++ [⟨.END, 0⟩] ≠ [] :=
    List.append_ne_nil_of_right_ne_nil _ (List.cons_ne_nil _ _)
  obtain ⟨hadd, hown⟩ := addRule_filled hfilled hid hne
  exact ⟨⟨hwf', hgrows.numbered (hget.numbered hP.numbered), hadd.distinct hP.distinct,
    hadd.length hP.length⟩, hadd, hown⟩

/-- The lines of a table are read one after the other. -/
theorem readTable {known : Text → Prop} {rules : List (Text × Text)}
    (hnodup : (rules.map Prod.fst).Nodup) (hnames : ∀ rule ∈ rules, IsName rule.1)
    (hlines : ∀ rule ∈ rules, IsLine known rule.2)
    (hknown : ∀ name ∈ rules.map Prod.fst, known name) {P : Parser} (hP : P.Sound) :
    ∃ fuel Q, parseRules fuel P (formatGrammar rules) = some Q ∧ ReadTable known rules P Q := by
  induction rules generalizing P with
  | nil =>
    exact ⟨1, P, rfl, hP, List.prefix_refl _, fun _ _ h => .inl h, fun _ _ _ => rfl,
      fun _ hid hid' => absurd hid' (Nat.not_lt.2 hid), fun _ _ h => absurd h List.not_mem_nil⟩
  | cons rule rules ih =>
    obtain ⟨name, body⟩ := rule
    obtain ⟨hname, hnames⟩ := List.forall_mem_cons.1 hnames
    obtain ⟨hline, hlines⟩ := List.forall_mem_cons.1 hlines
    rw [List.map_cons] at hknown hnodup
    obtain ⟨hnot, hnodup⟩ := List.nodup_cons.1 hnodup
    obtain ⟨hknownname, hknown⟩ := List.forall_mem_cons.1 hknown
    have hget := getSymbolId_grows P name
    have hwf := (getSymbolId_step hP.wf name).1.1
    have hid := getSymbolId_lt hP.numbered name
    obtain ⟨fuel, s, hsequences, hpos, hnew⟩ := hline.read name (P.getSymbolId name).2
      (formatGrammar rules) hwf (hget.numbered hP.numbered)
    have hgrows := (parse_grows fuel).2.1 _ _ _ _ _ _ hwf tidy_nil (named_nil _) hsequences
    obtain ⟨hsound, hfilled, hown⟩ := afterLine_sound hP hsequences
    have hrule := parseRule_line (P := P) hname hline.solid (solid_formatGrammar hnames)
      hsequences hpos
    obtain ⟨fuel', Q, hQ, hread⟩ := ih hnodup hnames hlines hknown hsound
    have hpre : P.symbolIds <+: (P.afterLine name s).symbolIds := hget.names.trans hgrows.names
    -- the number of the line's name is not that of a name of the lines to come
    have hkeep : Q.ruleAt (P.getSymbolId name).1 =
        (P.afterLine name s).ruleAt (P.getSymbolId name).1 := by
      refine hread.kept _ (lt_of_lt_of_le hid.1 hgrows.count_le) fun name' hname' hmem => ?_
      have hsame := hsound.numbered.name_unique hmem (hgrows.names.subset hid.2)
      rw [SymbolName.word.inj hsame] at hname'
      exact hnot hname'
    refine ⟨max (fuel + 1) fuel' + 1, Q, ?_, hread.sound, hpre.trans hread.names, ?_, ?_, ?_, ?_⟩
    · have hstart : peek (formatGrammar ((name, body) :: rules)) ≠ 0 := by
        have hword := hname.peek (defineText ++ (body ++ [byte '\n']) ++ formatGrammar rules)
        rw [formatGrammar, List.flatMap_cons, ruleLine, List.append_assoc]
        intro hzero
        rw [formatGrammar, hzero] at hword
        cases hword
      rw [parseRules, if_neg hstart, formatGrammar, List.flatMap_cons]
      change (parseRule _ P (ruleLine (name, body) ++ formatGrammar rules)).bind _ = _
      rw [parseRule_mono hrule (Nat.le_max_left _ _), Option.bind_some]
      exact parseRules_mono hQ (Nat.le_max_right _ _)
    · intro name' id hmem
      rcases hread.known name' id hmem with hmem | hk
      · rcases hnew name' id hmem with hmem | hk
        · rcases mem_getSymbolId hmem with hmem | rfl
          · exact .inl hmem
          · exact .inr hknownname
        · exact .inr hk
      · exact .inr hk
    · intro id hlt hno
      rw [List.map_cons] at hno
      obtain ⟨hnoname, hno⟩ := List.forall_mem_cons.1 hno
      have hother : id ≠ (P.getSymbolId name).1 := by
        rintro rfl
        exact hnoname ((hget.numbered hP.numbered).mem_of_lt hget.names hid.2 hlt)
      rw [hread.kept id (lt_of_lt_of_le hlt (hget.count_le.trans hgrows.count_le)) ?_, afterLine,
        ruleAt_addRule, if_neg hother, hgrows.ruleAt_eq (lt_of_lt_of_le hlt hget.count_le),
        hget.ruleAt_eq hlt]
      exact fun name' hname' hmem => hno name' hname' (hsound.numbered.mem_of_lt hpre hmem hlt)
    · intro id hge hlt
      by_cases hold : id < (P.afterLine name s).count
      · rcases hfilled.rules id hge hold with ⟨name', hmem⟩ | hne
        · exact .inl ⟨name', hread.names.subset hmem⟩
        · by_cases hword : ∃ name', (SymbolName.word name', id) ∈ (P.afterLine name s).symbolIds
          · obtain ⟨name', hmem⟩ := hword
            exact .inl ⟨name', hread.names.subset hmem⟩
          · right
            rwa [hread.kept id hold fun name' _ hmem => hword ⟨name', hmem⟩]
      · exact hread.filled id (Nat.le_of_not_lt hold) hlt
    · intro name' body' hmem
      rcases List.mem_cons.1 hmem with heq | hmem
      case inr => exact hread.lines name' body' hmem
      case inl =>
        cases heq
        refine ⟨_, hread.names.subset (hgrows.names.subset hid.2), hkeep ▸ hown,
          fun M l G hl hG hwords => ?_⟩
        obtain ⟨s', ess, ⟨fuel'', hsequences'⟩, _, hne, hrule', hflat, _, hlanguage⟩ :=
          hl.read name false _ [] _ hwf (hget.numbered hP.numbered) tidy_nil (named_nil _)
            (closes_line (formatGrammar rules))
        have hsame := (parseSequences_mono hsequences (Nat.le_max_left fuel fuel'')).symm.trans
          (parseSequences_mono hsequences' (Nat.le_max_right fuel fuel''))
        cases Option.some.inj hsame
        refine language_rule ?_ hne hflat (hlanguage G ⟨fun id hge hlt hgen => ?_, ?_⟩)
        · rw [Rules.rule, hG]
          change Q.ruleAt _ = _
          rw [hkeep, afterLine, ruleAt_addRule, if_pos rfl, hrule', List.nil_append]
        · rw [Rules.rule, hG]
          change Q.ruleAt id = _
          obtain ⟨base, k, hmem⟩ := hgen
          have hother : id ≠ (P.getSymbolId name).1 := by
            have hlt := hid.1
            omega
          rw [hread.kept id hlt fun name' _ hmem' => ?_, afterLine, ruleAt_addRule, if_neg hother]
          cases hsound.numbered.name_unique hmem hmem'
        · exact fun name' id hmem => hwords name' id (hread.names.subset hmem)

/-- The words of a rule of a grammar text. -/
def grammarLanguage (src name : Text) : Language Nat :=
  {w | ∃ fuel P id, ∃ G : Rules, parse fuel src = some P ∧ P.lookup (.word name) = some id ∧
    G.rules = P.rules ∧ w ∈ Cfg.language G.alts [.ref id]}

/-- A table of rules, as the converter has it. -/
structure Table (rules : List (Text × Text)) : Prop where
  nodup : (rules.map Prod.fst).Nodup
  isName : ∀ rule ∈ rules, IsName rule.1
  isLine : ∀ rule ∈ rules, IsLine (fun name => name ∈ rules.map Prod.fst) rule.2

/-- Where every rule is there, the parse is valid. -/
theorem validate_of_filled {P : Parser} (hP : P.Sound) (h : ∀ id < P.count, P.ruleAt id ≠ []) :
    P.validate = true := by
  have hthere (id : Nat) (hid : id < P.count) : id < P.rules.length := by
    by_contra hle
    exact h id hid (List.getD_eq_default _ _ (Nat.le_of_not_lt hle))
  refine List.all_eq_true.2 fun rule hrule => ?_
  obtain ⟨i, hi, rfl⟩ := List.mem_iff_getElem.1 hrule
  have hne : P.rules[i] ≠ [] := by
    have hat := h i (lt_of_lt_of_le hi hP.length)
    rwa [ruleAt, List.getD_eq_getElem _ _ hi] at hat
  refine decide_eq_true ⟨hne, List.all_eq_true.2 fun e he => ?_⟩
  rw [Bool.not_eq_true', decide_eq_false_iff_not]
  rintro ⟨href, hmissing, -⟩
  have hnamed : ∃ name, (name, e.value) ∈ P.symbolIds := by
    rcases hP.wf.rules _ hrule with hnil | ⟨body, hbody, -, hnamed⟩
    · exact absurd hnil hne
    · rw [hbody] at he
      rcases List.mem_append.1 he with he | he
      · exact hnamed e he href
      · rw [List.mem_singleton.1 he] at href
        cases href
  obtain ⟨name, hmem⟩ := hnamed
  have hid := hP.numbered.lt hmem
  rcases hmissing with hle | hnil
  · exact absurd (hthere _ hid) (Nat.not_lt.2 hle)
  · exact h _ hid hnil

theorem Table.parse {rules : List (Text × Text)} (h : Table rules) :
    ∃ fuel Q, parse fuel (formatGrammar rules) = some Q ∧
      ReadTable (fun name => name ∈ rules.map Prod.fst) rules ⟨[], []⟩ Q := by
  obtain ⟨fuel, Q, hQ, hread⟩ :=
    readTable h.nodup h.isName h.isLine (fun _ hname => hname) sound_empty
  refine ⟨fuel, Q, ?_, hread⟩
  have hvalid : Q.validate = true := by
    refine validate_of_filled hread.sound fun id hid => ?_
    rcases hread.filled id (Nat.zero_le _) hid with ⟨name, hmem⟩ | hne
    · rcases hread.known name id hmem with hmem' | hname
      · cases hmem'
      · obtain ⟨⟨_, body⟩, hrule, rfl⟩ := List.mem_map.1 hname
        obtain ⟨id', hmem', hne, _⟩ := hread.lines _ _ hrule
        rwa [hread.sound.distinct _ _ _ hmem hmem']
    · exact hne
  rw [Parser.parse, parseSpace_solid (solid_formatGrammar h.isName), hQ, Option.bind_some,
    if_pos hvalid]

/-- A rule of a table stands for what its text says, where the names in it stand for their
rules. -/
theorem Table.language {rules : List (Text × Text)} (h : Table rules) (hmem : (name, body) ∈ rules)
    (hM : ∀ name' l, M name' = some l → l = grammarLanguage (formatGrammar rules) name')
    (hbody : IsAlternates M body l) : grammarLanguage (formatGrammar rules) name = l := by
  obtain ⟨fuel, Q, hQ, hread⟩ := h.parse
  have hrules : ∀ rule ∈ Q.rules, RuleWF rule := by
    obtain ⟨hwf, hrefs⟩ := parse_wf hQ
    intro rule hrule
    rcases hwf.rules rule hrule with hnil | ⟨body, rfl, htidy, -⟩
    · exact absurd hnil (hrefs rule hrule).1
    · exact htidy.ruleWF
  obtain ⟨G, hG⟩ : ∃ G : Rules, G.rules = Q.rules :=
    ⟨⟨Q.rules, hrules, fun rule hrule => ((parse_wf hQ).2 rule hrule).2⟩, rfl⟩
  have hlanguage (name : Text) (id : Nat) (hid : (SymbolName.word name, id) ∈ Q.symbolIds) :
      grammarLanguage (formatGrammar rules) name = Cfg.language G.alts [.ref id] := by
    have hlookup := hread.sound.distinct.lookup hid
    ext w
    constructor
    · rintro ⟨fuel', Q', id', G', hQ', hid', hG', hw⟩
      cases parse_unique hQ hQ'
      cases hlookup.symm.trans hid'
      have hsame : G' = G := by
        cases G
        cases G'
        cases hG
        cases hG'
        rfl
      rwa [hsame] at hw
    · exact fun hw => ⟨fuel, Q, id, G, hQ, hlookup, hG, hw⟩
  obtain ⟨id, hid, _, hline⟩ := hread.lines name body hmem
  rw [hlanguage name id hid]
  refine hline M l G hbody hG fun name' id' hid' l' hl' => ?_
  rw [hM name' l' hl', hlanguage name' id' hid']

end Parser

end ActQuant.Grammar
