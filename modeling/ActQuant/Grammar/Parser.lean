import ActQuant.Grammar.LeftRecursion

namespace ActQuant.Grammar

/-! The parser of grammar texts. A text is its bytes, and reading behind them gives the byte that
ends a C string; `none` is an exception, or the end of the fuel. -/

abbrev Text := List Nat

/-- The byte a pointer into the text points to. -/
def peek (pos : Text) : Nat := pos.headD 0

/-- The byte of a character of the source. -/
abbrev byte (c : Char) : Nat := c.toNat

def quote : Nat := 34
def backslash : Nat := 92

/-- The length of a sequence by the upper four bits of its first byte. -/
def utf8Lengths : List Nat := [1, 1, 1, 1, 1, 1, 1, 1, 1, 1, 1, 1, 2, 2, 3, 4]

/-- The loop of `decode_utf8` over the bytes behind the first. -/
def decodeRest : Nat → Nat → Text → Nat × Text
  | 0, value, pos => (value, pos)
  | n + 1, value, pos =>
    if peek pos = 0 then (value, pos)
    else decodeRest n (value * 64 % 2 ^ 32 + peek pos % 64) pos.tail

/-- `decode_utf8` at a pointer. -/
def decodeUtf8 (src : Text) : Nat × Text :=
  let firstByte := peek src
  let len := utf8Lengths.getD (firstByte / 16) 0
  let mask := 2 ^ (8 - len) - 1
  decodeRest (len - 1) (firstByte &&& mask) src.tail

def isDigitChar (c : Nat) : Bool := byte '0' ≤ c ∧ c ≤ byte '9'

def isWordChar (c : Nat) : Bool :=
  (byte 'a' ≤ c ∧ c ≤ byte 'z') ∨ (byte 'A' ≤ c ∧ c ≤ byte 'Z') ∨ c = byte '-' ∨ isDigitChar c

def hexDigit (c : Nat) : Option Nat :=
  if byte 'a' ≤ c ∧ c ≤ byte 'f' then some (c - byte 'a' + 10)
  else if byte 'A' ≤ c ∧ c ≤ byte 'F' then some (c - byte 'A' + 10)
  else if byte '0' ≤ c ∧ c ≤ byte '9' then some (c - byte '0')
  else none

/-- `parse_hex`: as many digits as asked for, or an exception. -/
def parseHex : Nat → Nat → Text → Option (Nat × Text)
  | 0, value, pos => some (value, pos)
  | size + 1, value, pos =>
    (hexDigit (peek pos)).bind fun digit =>
      parseHex size ((value * 16 + digit) % 2 ^ 32) pos.tail

/-- `parse_space`; `inComment` is the inner loop. -/
def parseSpace (newlineOk : Bool) (inComment : Bool) : Text → Text
  | [] => []
  | c :: pos =>
    let newline := c = byte '\r' ∨ c = byte '\n'
    if c = 0 then c :: pos
    else if inComment ∧ ¬ newline then parseSpace newlineOk true pos
    else if c = byte '#' then parseSpace newlineOk true pos
    else if c = byte ' ' ∨ c = byte '\t' ∨ (newlineOk ∧ newline) then parseSpace newlineOk false pos
    else c :: pos

/-- The bytes at the beginning of a text that satisfy a test, and what is behind them. -/
def takeChars (p : Nat → Bool) : Text → Text × Text
  | [] => ([], [])
  | c :: pos =>
    if p c then
      let r := takeChars p pos
      (c :: r.1, r.2)
    else ([], c :: pos)

/-- `parse_name`, with the name. -/
def parseName (src : Text) : Option (Text × Text) :=
  let r := takeChars isWordChar src
  if r.1 = [] then none else some r

/-- `parse_int`, with the digits. -/
def parseInt (src : Text) : Option (Text × Text) :=
  let r := takeChars isDigitChar src
  if r.1 = [] then none else some r

/-- `std::stoul` stored in an `int`; what does not fit an `unsigned long` is an exception. -/
def stoulInt (digits : Text) : Option Int :=
  let n := digits.foldl (fun n c => n * 10 + (c - byte '0')) 0
  if n < 2 ^ 64 then some ((n : Int).bmod (2 ^ 32)) else none

def parseChar (src : Text) : Option (Nat × Text) :=
  if peek src = backslash then
    let c := peek src.tail
    let pos := src.tail.tail
    if c = byte 'x' then parseHex 2 0 pos
    else if c = byte 'u' then parseHex 4 0 pos
    else if c = byte 'U' then parseHex 8 0 pos
    else if c = byte 't' then some (byte '\t', pos)
    else if c = byte 'r' then some (byte '\r', pos)
    else if c = byte 'n' then some (byte '\n', pos)
    else if c = backslash ∨ c = quote ∨ c = byte '[' ∨ c = byte ']' then some (c, pos)
    else none
  else if peek src ≠ 0 then some (decodeUtf8 src)
  else none

/-- The name of a rule: a word of the text, or a word, `_` and a number; no word has a `_`. -/
inductive SymbolName where
  | word (name : Text)
  | generated (base : Text) (id : Nat)
  deriving DecidableEq

/-- `llama_grammar_parser`. -/
structure Parser where
  symbolIds : List (SymbolName × Nat)
  rules : List (List Element)

namespace Parser

def lookup (P : Parser) (name : SymbolName) : Option Nat := P.symbolIds.lookup name

def getSymbolId (P : Parser) (name : Text) : Nat × Parser :=
  match P.lookup (.word name) with
  | some id => (id, P)
  | none =>
    let nextId := P.symbolIds.length
    (nextId, { P with symbolIds := P.symbolIds ++ [(.word name, nextId)] })

def generateSymbolId (P : Parser) (baseName : Text) : Nat × Parser :=
  let nextId := P.symbolIds.length
  let name := SymbolName.generated baseName nextId
  (nextId, { P with symbolIds := P.symbolIds.filter (·.1 ≠ name) ++ [(name, nextId)] })

def addRule (P : Parser) (ruleId : Nat) (rule : List Element) : Parser :=
  let resized := P.rules ++ .replicate (ruleId + 1 - P.rules.length) []
  { P with rules := resized.set ruleId rule }

/-- The rules for the repetitions that may be left out, with the number of the last one. -/
def addRecRules (ruleName : Text) (prevRule : List Element) (maxTimes : Int) :
    Nat → Nat → Nat → Parser → Nat × Parser
  | 0, _, lastRecRuleId, P => (lastRecRuleId, P)
  | n + 1, i, lastRecRuleId, P =>
    let (recRuleId, P) := P.generateSymbolId ruleName
    let next : List Element :=
      if 0 < i ∨ maxTimes < 0 then
        [⟨.RULE_REF, if maxTimes < 0 then recRuleId else lastRecRuleId⟩]
      else []
    let recRule := prevRule ++ next ++ [⟨.ALT, 0⟩, ⟨.END, 0⟩]
    addRecRules ruleName prevRule maxTimes n (i + 1) recRuleId (P.addRule recRuleId recRule)

/-- `handle_repetitions`. -/
def handleRepetitions (P : Parser) (ruleName : Text) (rule : List Element) (lastSymStart : Nat)
    (minTimes maxTimes : Int) : Option (Parser × List Element) :=
  if lastSymStart = rule.length then none
  else
    let prevRule := rule.drop lastSymStart
    let repeated :=
      if minTimes = 0 then rule.take lastSymStart
      else rule ++ (List.replicate (minTimes - 1).toNat prevRule).flatten
    let nOpt := if maxTimes < 0 then 1 else maxTimes - minTimes
    let (lastRecRuleId, P) := P.addRecRules ruleName prevRule maxTimes nOpt.toNat 0 0
    some (P, if 0 < nOpt then repeated ++ [⟨.RULE_REF, lastRecRuleId⟩] else repeated)

/-- The loop over a literal. -/
def parseLiteral : Nat → List Element → Text → Option (List Element × Text)
  | 0, _, _ => none
  | fuel + 1, rule, pos =>
    if peek pos = quote then some (rule, pos.tail)
    else if peek pos = 0 then none
    else
      (parseChar pos).bind fun c => parseLiteral fuel (rule ++ [⟨.CHAR, c.1⟩]) c.2

/-- The loop over the ranges of a class. -/
def parseRanges (startType : Gretype) (lastSymStart : Nat) :
    Nat → List Element → Text → Option (List Element × Text)
  | 0, _, _ => none
  | fuel + 1, rule, pos =>
    if peek pos = byte ']' then some (rule, pos.tail)
    else if peek pos = 0 then none
    else
      (parseChar pos).bind fun c =>
        let type := if lastSymStart < rule.length then .CHAR_ALT else startType
        let rule := rule ++ [⟨type, c.1⟩]
        let pos := c.2
        if peek pos = byte '-' ∧ peek pos.tail ≠ byte ']' then
          if peek pos.tail = 0 then none
          else
            (parseChar pos.tail).bind fun endchar =>
              parseRanges startType lastSymStart fuel
                (rule ++ [⟨.CHAR_RNG_UPPER, endchar.1⟩]) endchar.2
        else parseRanges startType lastSymStart fuel rule pos

/-- The bounds of `{`, from behind it. -/
def parseBounds (isNested : Bool) (src : Text) : Option (Int × Int × Text) :=
  (parseInt (parseSpace isNested false src)).bind fun low =>
    (stoulInt low.1).bind fun minTimes =>
      let pos := parseSpace isNested false low.2
      if peek pos = byte '}' then
        some (minTimes, minTimes, parseSpace isNested false pos.tail)
      else if peek pos = byte ',' then
        let pos := parseSpace isNested false pos.tail
        if isDigitChar (peek pos) then
          (parseInt pos).bind fun high =>
            (stoulInt high.1).bind fun maxTimes =>
              let pos := parseSpace isNested false high.2
              if peek pos = byte '}' then
                some (minTimes, maxTimes, parseSpace isNested false pos.tail)
              else none
        else if peek pos = byte '}' then
          some (minTimes, -1, parseSpace isNested false pos.tail)
        else none
      else none

/-- What `parse_sequence` works on. -/
structure SequenceState where
  parser : Parser
  rule : List Element
  lastSymStart : Nat
  pos : Text

/-- The repetition of the last item. -/
def SequenceState.repeated (s : SequenceState) (ruleName : Text) (minTimes maxTimes : Int)
    (pos : Text) : Option SequenceState :=
  (s.parser.handleRepetitions ruleName s.rule s.lastSymStart minTimes maxTimes).map fun r =>
    { s with parser := r.1, rule := r.2, pos := pos }

mutual

/-- `parse_alternates`. -/
def parseAlternates (ruleName : Text) (isNested : Bool) (ruleId : Nat) :
    Nat → Parser → Text → Option (Parser × Text)
  | 0, _, _ => none
  | fuel + 1, P, src =>
    (parseSequences ruleName isNested fuel P [] src).map fun r =>
      (r.parser.addRule ruleId (r.rule ++ [⟨.END, 0⟩]), r.pos)

/-- A sequence, and those behind each `|`. -/
def parseSequences (ruleName : Text) (isNested : Bool) :
    Nat → Parser → List Element → Text → Option SequenceState
  | 0, _, _, _ => none
  | fuel + 1, P, rule, src =>
    (parseItems ruleName isNested fuel ⟨P, rule, rule.length, src⟩).bind fun s =>
      if peek s.pos = byte '|' then
        parseSequences ruleName isNested fuel s.parser (s.rule ++ [⟨.ALT, 0⟩])
          (parseSpace true false s.pos.tail)
      else some s

/-- The loop of `parse_sequence`. -/
def parseItems (ruleName : Text) (isNested : Bool) : Nat → SequenceState → Option SequenceState
  | 0, _ => none
  | fuel + 1, s =>
    let c := peek s.pos
    let start := s.rule.length
    let space := parseSpace isNested false
    if c = quote then
      (parseLiteral fuel s.rule s.pos.tail).bind fun r =>
        parseItems ruleName isNested fuel
          { s with rule := r.1, lastSymStart := start, pos := space r.2 }
    else if c = byte '[' then
      let negated := peek s.pos.tail = byte '^'
      let startType := if negated then .CHAR_NOT else .CHAR
      let pos := if negated then s.pos.tail.tail else s.pos.tail
      (parseRanges startType start fuel s.rule pos).bind fun r =>
        parseItems ruleName isNested fuel
          { s with rule := r.1, lastSymStart := start, pos := space r.2 }
    else if isWordChar c then
      (parseName s.pos).bind fun name =>
        let (refRuleId, P) := s.parser.getSymbolId name.1
        parseItems ruleName isNested fuel
          { parser := P, rule := s.rule ++ [⟨.RULE_REF, refRuleId⟩], lastSymStart := start,
            pos := space name.2 }
    else if c = byte '(' then
      let (subRuleId, P) := s.parser.generateSymbolId ruleName
      (parseAlternates ruleName true subRuleId fuel P (parseSpace true false s.pos.tail)).bind
        fun r =>
          if peek r.2 = byte ')' then
            parseItems ruleName isNested fuel
              { parser := r.1, rule := s.rule ++ [⟨.RULE_REF, subRuleId⟩], lastSymStart := start,
                pos := space r.2.tail }
          else none
    else if c = byte '.' then
      parseItems ruleName isNested fuel
        { s with rule := s.rule ++ [⟨.CHAR_ANY, 0⟩], lastSymStart := start,
                 pos := space s.pos.tail }
    else if c = byte '*' then
      (s.repeated ruleName 0 (-1) (space s.pos.tail)).bind (parseItems ruleName isNested fuel)
    else if c = byte '+' then
      (s.repeated ruleName 1 (-1) (space s.pos.tail)).bind (parseItems ruleName isNested fuel)
    else if c = byte '?' then
      (s.repeated ruleName 0 1 (space s.pos.tail)).bind (parseItems ruleName isNested fuel)
    else if c = byte '\x7b' then
      (parseBounds isNested s.pos.tail).bind fun r =>
        (s.repeated ruleName r.1 r.2.1 r.2.2).bind (parseItems ruleName isNested fuel)
    else some s

end

/-- `parse_rule`. -/
def parseRule (fuel : Nat) (P : Parser) (src : Text) : Option (Parser × Text) :=
  (parseName src).bind fun name =>
    let pos := parseSpace false false name.2
    let (ruleId, P) := P.getSymbolId name.1
    if peek pos = byte ':' ∧ peek pos.tail = byte ':' ∧ peek pos.tail.tail = byte '=' then
      (parseAlternates name.1 false ruleId fuel P (parseSpace true false (pos.drop 3))).bind
        fun r =>
          let pos := r.2
          if peek pos = byte '\r' then
            some (r.1, parseSpace true false
              (if peek pos.tail = byte '\n' then pos.tail.tail else pos.tail))
          else if peek pos = byte '\n' then some (r.1, parseSpace true false pos.tail)
          else if peek pos ≠ 0 then none
          else some (r.1, parseSpace true false pos)
    else none

/-- The loop of `parse` over the rules. -/
def parseRules : Nat → Parser → Text → Option Parser
  | 0, _, _ => none
  | fuel + 1, P, pos =>
    if peek pos = 0 then some P
    else (parseRule fuel P pos).bind fun r => parseRules fuel r.1 r.2

/-- The validation at the end of `parse`: every rule is there, and every rule referred to that
has a name. -/
def validate (P : Parser) : Bool :=
  P.rules.all fun rule => rule ≠ [] ∧ rule.all fun e =>
    !(e.type = .RULE_REF ∧ (P.rules.length ≤ e.value ∨ P.rules.getD e.value [] = []) ∧
      P.symbolIds.any fun kv => kv.2 = e.value)

def parse (fuel : Nat) (src : Text) : Option Parser :=
  (parseRules fuel ⟨[], []⟩ (parseSpace true false src)).bind fun P =>
    if P.validate then some P else none

end Parser

/-- The copy of a rule up to its first `END`. -/
def copyRule (rule : List Element) : List Element :=
  rule.takeWhile (·.type ≠ .END) ++ [⟨.END, 0⟩]

/-- `llama_grammar_init_impl` up to the check for left recursion: the rules and the start rule. -/
def readGrammar (fuel : Nat) (grammarStr grammarRoot : Text) :
    Option (List (List Element) × Nat) :=
  (Parser.parse fuel grammarStr).bind fun P =>
    if P.rules = [] then none
    else if (P.lookup (.word ("root".toList.map byte))).isNone then none
    else (P.lookup (.word grammarRoot)).bind fun startRuleIndex =>
      some (P.rules.map copyRule, startRuleIndex)

/-! One turn of the loop of `parse_sequence`. -/

namespace Parser

/-- The repetition an operator asks for. -/
def SequenceState.operate (s : SequenceState) (ruleName : Text) (isNested : Bool) :
    Option SequenceState :=
  let c := peek s.pos
  let space := parseSpace isNested false
  if c = byte '*' then s.repeated ruleName 0 (-1) (space s.pos.tail)
  else if c = byte '+' then s.repeated ruleName 1 (-1) (space s.pos.tail)
  else if c = byte '?' then s.repeated ruleName 0 1 (space s.pos.tail)
  else if c = byte '\x7b' then
    (parseBounds isNested s.pos.tail).bind fun r => s.repeated ruleName r.1 r.2.1 r.2.2
  else none

def SequenceState.push (s : SequenceState) (P : Parser) (rule : List Element) (pos : Text) :
    SequenceState := ⟨P, rule, s.rule.length, pos⟩

/-- An item or an operator. -/
def itemStep (ruleName : Text) (isNested : Bool) (fuel : Nat) (s : SequenceState) :
    Option SequenceState :=
  let c := peek s.pos
  let space := parseSpace isNested false
  if c = quote then
    (parseLiteral fuel s.rule s.pos.tail).map fun r => s.push s.parser r.1 (space r.2)
  else if c = byte '[' then
    let negated := peek s.pos.tail = byte '^'
    (parseRanges (if negated then .CHAR_NOT else .CHAR) s.rule.length fuel s.rule
      (if negated then s.pos.tail.tail else s.pos.tail)).map fun r =>
        s.push s.parser r.1 (space r.2)
  else if isWordChar c then
    (parseName s.pos).map fun name =>
      s.push (s.parser.getSymbolId name.1).2
        (s.rule ++ [⟨.RULE_REF, (s.parser.getSymbolId name.1).1⟩]) (space name.2)
  else if c = byte '(' then
    (parseAlternates ruleName true (s.parser.generateSymbolId ruleName).1 fuel
      (s.parser.generateSymbolId ruleName).2 (parseSpace true false s.pos.tail)).bind fun r =>
        if peek r.2 = byte ')' then
          some (s.push r.1
            (s.rule ++ [⟨.RULE_REF, (s.parser.generateSymbolId ruleName).1⟩]) (space r.2.tail))
        else none
  else if c = byte '.' then
    some (s.push s.parser (s.rule ++ [⟨.CHAR_ANY, 0⟩]) (space s.pos.tail))
  else s.operate ruleName isNested

/-- Whether the loop goes on. -/
def startsItem (c : Nat) : Bool :=
  c = quote ∨ c = byte '[' ∨ isWordChar c ∨ c = byte '(' ∨ c = byte '.' ∨ c = byte '*' ∨
    c = byte '+' ∨ c = byte '?' ∨ c = byte '\x7b'

theorem startsItem_of (h : c = quote ∨ c = byte '[' ∨ isWordChar c ∨ c = byte '(' ∨ c = byte '.' ∨
    c = byte '*' ∨ c = byte '+' ∨ c = byte '?' ∨ c = byte '\x7b') : startsItem c = true :=
  decide_eq_true h

theorem parseItems_succ (ruleName : Text) (isNested : Bool) (fuel : Nat) (s : SequenceState) :
    parseItems ruleName isNested (fuel + 1) s =
      if startsItem (peek s.pos) then
        (itemStep ruleName isNested fuel s).bind (parseItems ruleName isNested fuel)
      else some s := by
  rw [parseItems, itemStep, SequenceState.operate]
  dsimp only
  by_cases hquote : peek s.pos = quote
  · rw [if_pos hquote, if_pos hquote, if_pos (startsItem_of (.inl hquote)), Option.bind_map]
    rfl
  rw [if_neg hquote, if_neg hquote]
  by_cases hclass : peek s.pos = byte '['
  · rw [if_pos hclass, if_pos hclass, if_pos (startsItem_of (.inr (.inl hclass))), Option.bind_map]
    rfl
  rw [if_neg hclass, if_neg hclass]
  by_cases hword : isWordChar (peek s.pos) = true
  · rw [if_pos hword, if_pos hword, if_pos (startsItem_of (.inr (.inr (.inl hword)))),
      Option.bind_map]
    rfl
  rw [if_neg hword, if_neg hword]
  by_cases hgroup : peek s.pos = byte '('
  · rw [if_pos hgroup, if_pos hgroup, if_pos (startsItem_of (.inr (.inr (.inr (.inl hgroup))))),
      Option.bind_assoc]
    congr 1
    funext r
    split <;> rfl
  rw [if_neg hgroup, if_neg hgroup]
  by_cases hany : peek s.pos = byte '.'
  · rw [if_pos hany, if_pos hany,
      if_pos (startsItem_of (.inr (.inr (.inr (.inr (.inl hany))))))]
    rfl
  rw [if_neg hany, if_neg hany]
  by_cases hstar : peek s.pos = byte '*'
  · rw [if_pos hstar, if_pos hstar, if_pos (startsItem_of (by simp only [hstar, true_or, or_true]))]
  rw [if_neg hstar, if_neg hstar]
  by_cases hplus : peek s.pos = byte '+'
  · rw [if_pos hplus, if_pos hplus, if_pos (startsItem_of (by simp only [hplus, true_or, or_true]))]
  rw [if_neg hplus, if_neg hplus]
  by_cases hopt : peek s.pos = byte '?'
  · rw [if_pos hopt, if_pos hopt, if_pos (startsItem_of (by simp only [hopt, true_or, or_true]))]
  rw [if_neg hopt, if_neg hopt]
  by_cases hbrace : peek s.pos = byte '\x7b'
  · rw [if_pos hbrace, if_pos hbrace, if_pos (startsItem_of (by simp only [hbrace, or_true])),
      Option.bind_assoc]
  rw [if_neg hbrace, if_neg hbrace, if_neg]
  rw [startsItem, decide_eq_true_iff]
  rintro (h | h | h | h | h | h | h | h | h)
  exacts [hquote h, hclass h, hword h, hgroup h, hany h, hstar h, hplus h, hopt h, hbrace h]

end Parser

end ActQuant.Grammar
