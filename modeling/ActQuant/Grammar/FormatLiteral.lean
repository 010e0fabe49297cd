import ActQuant.Grammar.ParserSpec
import ActQuant.Grammar.Utf8Pieces

namespace ActQuant.Grammar
open ActQuant.Lib

/-! The literals that are written for JSON values, and how they are read as part of a grammar. -/

section Bytes

/-- The two tables agree on the bytes that can be the first. -/
theorem utf8Lengths_eq (h : sequenceLengths.getD q 0 = n + 1) : utf8Lengths.getD q 0 = n + 1 := by
  by_cases hq : q < 16
  · interval_cases q <;> first | exact h | cases h
  · rw [List.getD_eq_default _ _ (Nat.le_of_not_lt hq)] at h
    cases h

theorem utf8Lengths_leadByte (hc : c < 2 ^ 21) :
    utf8Lengths.getD (leadByte (extraBytes c) c / 16) 0 = extraBytes c + 1 :=
  utf8Lengths_eq (leadByte_spec hc).1

theorem decodeRest_tailBytes (hc : c < 2 ^ 21) (n : Nat) (pos : Text) :
    decodeRest n (c / 64 ^ n) (tailBytes n c ++ pos) = (c, pos) := by
  induction n with
  | zero =>
    rw [tailBytes, List.nil_append, decodeRest, Nat.pow_zero, Nat.div_one]
  | succ n ih =>
    have hdiv : c / 64 ^ (n + 1) = c / 64 ^ n / 64 := by rw [Nat.pow_succ, Nat.div_div_eq_div_mul]
    have hle : c / 64 ^ n ≤ c := Nat.div_le_self _ _
    have hvalue : c / 64 ^ (n + 1) * 64 % 2 ^ 32 + (0x80 + c / 64 ^ n % 64) % 64 = c / 64 ^ n := by
      rw [hdiv]
      omega
    rw [tailBytes, List.cons_append, decodeRest, peek, List.headD_cons, if_neg (by omega),
      List.tail_cons, hvalue, ih]

/-- The bytes of a code point are read as that code point. -/
theorem decodeUtf8_utf8Bytes (hc : c < 2 ^ 21) (pos : Text) :
    Grammar.decodeUtf8 (utf8Bytes c ++ pos) = (c, pos) := by
  have hmask : 8 - (extraBytes c + 1) = 7 - extraBytes c := by omega
  rw [Grammar.decodeUtf8, utf8Bytes, List.cons_append, peek, List.headD_cons, List.tail_cons]
  rw [utf8Lengths_leadByte hc, hmask, Nat.and_two_pow_sub_one_eq_mod, (leadByte_spec hc).2,
    Nat.add_sub_cancel, decodeRest_tailBytes hc]

/-- The bytes behind the first of a character, and the first where there are more, are not ASCII. -/
theorem utf8Bytes_cases (c : Nat) : utf8Bytes c = [c] ∧ c < 0x80 ∨ ∀ b ∈ utf8Bytes c, 0x80 ≤ b := by
  have htail (n : Nat) : ∀ b ∈ tailBytes n c, 0x80 ≤ b := by
    induction n with
    | zero => exact fun b hb => absurd hb List.not_mem_nil
    | succ n ih =>
      rw [tailBytes]
      exact List.forall_mem_cons.2 ⟨by omega, ih⟩
  by_cases hc : c < 0x80
  · left
    rw [utf8Bytes, extraBytes, if_pos hc]
    exact ⟨by simp [leadByte, tailBytes], hc⟩
  · right
    rw [utf8Bytes]
    refine List.forall_mem_cons.2 ⟨?_, htail _⟩
    unfold extraBytes
    split_ifs <;> simp [leadByte] <;> omega

end Bytes

theorem peek_append (h : peek t ≠ 0) (rest : Text) : peek (t ++ rest) = peek t := by
  cases t with
  | nil => exact absurd rfl h
  | cons b t => rfl

/-- Some bytes are read as one character of a literal. -/
structure ReadAs (t : Text) (c : Nat) : Prop where
  not_quote : peek t ≠ quote
  not_end : peek t ≠ 0
  parse : ∀ rest, parseChar (t ++ rest) = some (c, rest)

theorem readAs_utf8Bytes (hc : c < 2 ^ 21) (hzero : c ≠ 0) (hquote : c ≠ quote)
    (hescape : c ≠ backslash) : ReadAs (utf8Bytes c) c := by
  have hpeek : peek (utf8Bytes c) ≠ quote ∧ peek (utf8Bytes c) ≠ 0 ∧
      peek (utf8Bytes c) ≠ backslash := by
    rcases utf8Bytes_cases c with ⟨hone, _⟩ | hmany
    · rw [hone]
      exact ⟨hquote, hzero, hescape⟩
    · have hhead := hmany (leadByte (extraBytes c) c) (by rw [utf8Bytes]; exact .head _)
      rw [utf8Bytes, peek, List.headD_cons, quote, backslash]
      omega
  constructor
  case not_quote => exact hpeek.1
  case not_end => exact hpeek.2.1
  case parse =>
    intro rest
    have happend := peek_append hpeek.2.1 rest
    rw [parseChar, happend, if_neg hpeek.2.2, if_pos hpeek.2.1, decodeUtf8_utf8Bytes hc]

theorem parseLiteral_readAs (h : ReadAs t c) (fuel : Nat) (rule : List Element) (rest : Text) :
    Parser.parseLiteral (fuel + 1) rule (t ++ rest) =
      Parser.parseLiteral fuel (rule ++ [⟨.CHAR, c⟩]) rest := by
  rw [Parser.parseLiteral, peek_append h.not_end, if_neg h.not_quote, if_neg h.not_end,
    h.parse rest, Option.bind_some]

/-! ### JSON values and their text -/

/-- The text of a number: digits, signs, a point and an exponent. -/
def isNumberChar (c : Char) : Bool := c.isDigit ∨ c = '-' ∨ c = '+' ∨ c = '.' ∨ c = 'e' ∨ c = 'E'

structure NumberText where
  text : List Char
  chars : ∀ c ∈ text, isNumberChar c

/-- A JSON value, with its objects' members in their order and its numbers as they are written. -/
inductive Json where
  | null
  | boolean (b : Bool)
  | number (n : NumberText)
  | string (s : List Char)
  | array (vs : List Json)
  | object (members : List (List Char × Json))

def hexDigits : List Char := "0123456789abcdef".toList

/-- What `dump_escaped` writes for a character. -/
def dumpEscapedChar (c : Char) : List Char :=
  if c.toNat = 8 then ['\\', 'b']
  else if c.toNat = 9 then ['\\', 't']
  else if c.toNat = 10 then ['\\', 'n']
  else if c.toNat = 12 then ['\\', 'f']
  else if c.toNat = 13 then ['\\', 'r']
  else if c.toNat = 34 then ['\\', '"']
  else if c.toNat = 92 then ['\\', '\\']
  else if c.toNat ≤ 31 then
    ['\\', 'u', '0', '0', hexDigits.getD (c.toNat / 16) '0', hexDigits.getD (c.toNat % 16) '0']
  else [c]

def dumpEscaped (s : List Char) : List Char := s.flatMap dumpEscapedChar

def dumpString (s : List Char) : List Char := '"' :: dumpEscaped s ++ ['"']

/-- What is written between the elements of an array or an object. -/
def separated : List (List Char) → List Char
  | [] => []
  | [t] => t
  | t :: u :: ts => t ++ ',' :: separated (u :: ts)

mutual

/-- `dump`: the text of a value, without spaces. -/
def Json.dump : Json → List Char
  | .null => "null".toList
  | .boolean b => if b then "true".toList else "false".toList
  | .number n => n.text
  | .string s => dumpString s
  | .array vs => '[' :: separated (dumpElements vs) ++ [']']
  | .object members => '\x7b' :: separated (dumpMembers members) ++ ['\x7d']

def dumpElements : List Json → List (List Char)
  | [] => []
  | v :: vs => v.dump :: dumpElements vs

def dumpMembers : List (List Char × Json) → List (List Char)
  | [] => []
  | (key, v) :: members => (dumpString key ++ ':' :: v.dump) :: dumpMembers members

end

mutual

/-- The strings of a value, its keys included. -/
def Json.strings : Json → List (List Char)
  | .string s => [s]
  | .array vs => elementStrings vs
  | .object members => memberStrings members
  | _ => []

def elementStrings : List Json → List (List Char)
  | [] => []
  | v :: vs => v.strings ++ elementStrings vs

def memberStrings : List (List Char × Json) → List (List Char)
  | [] => []
  | (key, v) :: members => key :: v.strings ++ memberStrings members

end

/-! ### Literals -/

/-- `GRAMMAR_LITERAL_ESCAPE_RE` on one byte. -/
def grammarLiteralEscapeRe (b : Nat) : Bool := b = byte '\r' ∨ b = byte '\n' ∨ b = quote

/-- `GRAMMAR_LITERAL_ESCAPES`. -/
def grammarLiteralEscapes : List (Nat × Text) :=
  [(byte '\r', [backslash, byte 'r']), (byte '\n', [backslash, byte 'n']),
    (quote, [backslash, quote]), (byte '-', [backslash, byte '-']),
    (byte ']', [backslash, byte ']'])]

/-- `replacePattern`, for a pattern that matches single bytes. -/
def replacePattern (input : Text) (regex : Nat → Bool) (replacement : Nat → Text) : Text :=
  input.flatMap fun b => if regex b then replacement b else [b]

/-- `format_literal`. -/
def formatLiteral (literal : Text) : Text :=
  quote :: replacePattern literal grammarLiteralEscapeRe
    (fun b => (grammarLiteralEscapes.lookup b).getD []) ++ [quote]

/-- `_generate_constant_rule`. -/
def generateConstantRule (value : Json) : Text := formatLiteral (textOf value.dump)

/-- A character that JSON text has only escaped. -/
def NeedsEscape (c : Char) : Prop := c.toNat ≤ 31 ∨ c.toNat = 34 ∨ c.toNat = 92

theorem dumpEscapedChar_of_plain (h : ¬ NeedsEscape c) : dumpEscapedChar c = [c] := by
  rw [NeedsEscape] at h
  rw [dumpEscapedChar, if_neg (by omega), if_neg (by omega), if_neg (by omega), if_neg (by omega),
    if_neg (by omega), if_neg (by omega), if_neg (by omega), if_neg (by omega)]

/-- A text with a number of escape sequences. -/
inductive Escapes : Nat → List Char → Prop
  | nil : Escapes 0 []
  | plain (hc : c ≠ '\\') (h₀ : c.toNat ≠ 0) : Escapes n cs → Escapes n (c :: cs)
  | escape (hc : NeedsEscape c) : Escapes n cs → Escapes (n + 1) (dumpEscapedChar c ++ cs)

theorem Escapes.append (h : Escapes m cs) (h' : Escapes n ds) : Escapes (m + n) (cs ++ ds) := by
  induction h with
  | nil => rwa [Nat.zero_add]
  | plain hc h₀ _ ih => exact .plain hc h₀ ih
  | escape hc _ ih =>
    rw [List.append_assoc, Nat.add_right_comm]
    exact .escape hc ih

theorem escapes_plain (h : ∀ c ∈ cs, c ≠ '\\' ∧ c.toNat ≠ 0) : Escapes 0 cs := by
  induction cs with
  | nil => exact .nil
  | cons c cs ih =>
    obtain ⟨⟨hc, h₀⟩, hcs⟩ := List.forall_mem_cons.1 h
    exact .plain hc h₀ (ih hcs)

/-- A text in which just what some strings need is escaped. -/
def Dumped (cs : List Char) (strings : List (List Char)) : Prop :=
  ∃ n, Escapes n cs ∧ (n = 0 ↔ ∀ s ∈ strings, ∀ c ∈ s, ¬ NeedsEscape c)

theorem dumped_plain (h : ∀ c ∈ cs, c ≠ '\\' ∧ c.toNat ≠ 0) : Dumped cs [] :=
  ⟨0, escapes_plain h, fun _ _ hs => (List.not_mem_nil hs).elim, fun _ => rfl⟩

theorem dumped_of_all (h : cs.all (fun c => decide (c ≠ '\\' ∧ c.toNat ≠ 0)) = true) :
    Dumped cs [] := dumped_plain fun c hc => of_decide_eq_true (List.all_eq_true.1 h c hc)

theorem Dumped.append (h : Dumped cs ss) (h' : Dumped ds ts) : Dumped (cs ++ ds) (ss ++ ts) := by
  obtain ⟨m, hm, hmiff⟩ := h
  obtain ⟨n, hn, hniff⟩ := h'
  refine ⟨m + n, hm.append hn, ?_⟩
  rw [Nat.add_eq_zero_iff, hmiff, hniff]
  simp only [List.mem_append, or_imp, forall_and]

theorem dumped_dumpEscaped (s : List Char) : Dumped (dumpEscaped s) [s] := by
  induction s with
  | nil => exact ⟨0, .nil, fun _ => by simp, fun _ => rfl⟩
  | cons c s ih =>
    obtain ⟨n, hn, hiff⟩ := ih
    rw [dumpEscaped, List.flatMap_cons]
    simp only [Dumped, List.mem_singleton, forall_eq, List.forall_mem_cons] at hiff ⊢
    by_cases hc : NeedsEscape c
    · refine ⟨n + 1, .escape hc hn, fun h => absurd h (Nat.succ_ne_zero n), fun h => ?_⟩
      exact absurd hc h.1
    · have hplain : c ≠ '\\' ∧ c.toNat ≠ 0 := by
        rw [NeedsEscape] at hc
        exact ⟨fun h => by rw [h] at hc; exact hc (by decide), by omega⟩
      rw [dumpEscapedChar_of_plain hc]
      refine ⟨n, .plain hplain.1 hplain.2 hn, fun h => ⟨hc, hiff.1 h⟩, fun h => hiff.2 h.2⟩

theorem dumped_dumpString (s : List Char) : Dumped (dumpString s) [s] := by
  have hquote : Dumped ['"'] [] := dumped_of_all rfl
  exact (hquote.append (dumped_dumpEscaped s)).append hquote

theorem Dumped.separate (h : Dumped t ss) (hrest : Dumped (separated ts) ss') :
    Dumped (separated (t :: ts)) (ss ++ ss') := by
  cases ts with
  | nil =>
    have happend := h.append hrest
    rwa [separated, List.append_nil] at happend
  | cons u ts =>
    have hcomma : Dumped [','] [] := dumped_of_all rfl
    exact h.append (hcomma.append hrest)

theorem NumberText.dumped (n : NumberText) : Dumped n.text [] := by
  apply dumped_plain
  intro c hc
  have hchar := n.chars c hc
  constructor
  · rintro rfl
    exact absurd hchar (by decide)
  · intro h₀
    have hnul : c = '\x00' := Char.toNat_inj.1 h₀
    rw [hnul] at hchar
    exact absurd hchar (by decide)

mutual

theorem Json.dumped : ∀ v : Json, Dumped v.dump v.strings
  | .null => dumped_of_all rfl
  | .boolean true => dumped_of_all rfl
  | .boolean false => dumped_of_all rfl
  | .number n => n.dumped
  | .string s => dumped_dumpString s
  | .array vs => by
    have hopen : Dumped ['['] [] := dumped_of_all rfl
    have hclose : Dumped [']'] [] := dumped_of_all rfl
    have hall := (hopen.append (dumped_elements vs)).append hclose
    rwa [List.append_nil] at hall
  | .object members => by
    have hopen : Dumped ['\x7b'] [] := dumped_of_all rfl
    have hclose : Dumped ['\x7d'] [] := dumped_of_all rfl
    have hall := (hopen.append (dumped_members members)).append hclose
    rwa [List.append_nil] at hall

theorem dumped_elements : ∀ vs, Dumped (separated (dumpElements vs)) (elementStrings vs)
  | [] => dumped_of_all rfl
  | v :: vs => v.dumped.separate (dumped_elements vs)

theorem dumped_members :
    ∀ members, Dumped (separated (dumpMembers members)) (memberStrings members)
  | [] => dumped_of_all rfl
  | (key, v) :: members => by
    have hcolon : Dumped [':'] [] := dumped_of_all rfl
    have hmember := (dumped_dumpString key).append (hcolon.append v.dumped)
    exact hmember.separate (dumped_members members)

end

/-! ### How the literal is read -/

/-- What stands between the quotes of a literal. -/
def escapeBytes (t : Text) : Text :=
  replacePattern t grammarLiteralEscapeRe fun b => (grammarLiteralEscapes.lookup b).getD []

theorem escapeBytes_append (t u : Text) : escapeBytes (t ++ u) = escapeBytes t ++ escapeBytes u :=
  List.flatMap_append

theorem escapeBytes_of_none (h : ∀ b ∈ t, grammarLiteralEscapeRe b = false) :
    escapeBytes t = t := by
  induction t with
  | nil => rfl
  | cons b t ih =>
    obtain ⟨hb, ht⟩ := List.forall_mem_cons.1 h
    have hone : escapeBytes (b :: t) = [b] ++ escapeBytes t := by
      rw [escapeBytes, replacePattern, List.flatMap_cons, hb]
      rfl
    rw [hone, ih ht, List.singleton_append]

theorem textOf_ascii (h : ∀ c ∈ cs, c.toNat < 0x80) : textOf cs = cs.map Char.toNat := by
  induction cs with
  | nil => rfl
  | cons c cs ih =>
    obtain ⟨hc, hcs⟩ := List.forall_mem_cons.1 h
    have hone : utf8Bytes c.toNat = [c.toNat] := by
      rcases utf8Bytes_cases c.toNat with hone | hmany
      · exact hone.1
      · have := hmany (leadByte (extraBytes c.toNat) c.toNat) (by rw [utf8Bytes]; exact .head _)
        rw [extraBytes, if_pos hc, leadByte, Nat.pow_zero, Nat.div_one] at this
        simp at this
        omega
    rw [textOf_cons, hone, ih hcs, List.map_cons, List.singleton_append]

/-- A character other than a backslash is read back from what is written for it. -/
theorem readAs_escapeBytes (hc : c ≠ '\\') (h₀ : c.toNat ≠ 0) :
    ReadAs (escapeBytes (utf8Bytes c.toNat)) c.toNat := by
  have hbackslash : c.toNat ≠ backslash := fun h => hc (Char.toNat_inj.1 h)
  have hcases : utf8Bytes c.toNat = [c.toNat] ∧ c.toNat < 0x80 ∨ _ := utf8Bytes_cases c.toNat
  by_cases hescape : grammarLiteralEscapeRe c.toNat = true
  · -- one of the three bytes that are escaped
    have hvalue : c.toNat = 13 ∨ c.toNat = 10 ∨ c.toNat = 34 := of_decide_eq_true hescape
    have hone : utf8Bytes c.toNat = [c.toNat] := by
      rcases hcases with hone | hmany
      · exact hone.1
      · have hlead := hmany (leadByte (extraBytes c.toNat) c.toNat)
          (by rw [utf8Bytes]; exact .head _)
        rcases hvalue with h | h | h <;> rw [h] at hlead <;> exact absurd hlead (by decide)
    rw [hone]
    rcases hvalue with h | h | h <;> rw [h]
    all_goals exact ⟨by decide, by decide, fun rest => rfl⟩
  · have hnone : ∀ b ∈ utf8Bytes c.toNat, grammarLiteralEscapeRe b = false := by
      intro b hb
      rcases hcases with hone | hmany
      · rw [hone.1, List.mem_singleton] at hb
        rw [hb]
        exact Bool.eq_false_iff.2 hescape
      · have hge := hmany b hb
        refine decide_eq_false ?_
        rw [quote]
        change ¬ (b = 13 ∨ b = 10 ∨ b = 34)
        omega
    have hquote : c.toNat ≠ quote := by
      intro h
      rw [h] at hescape
      exact hescape rfl
    rw [escapeBytes_of_none hnone]
    exact readAs_utf8Bytes (char_lt c) h₀ hquote hbackslash

/-- A text without escape sequences is what its literal says. -/
theorem parseLiteral_of_escapes (h : Escapes n cs) (hn : n = 0) (rule : List Element)
    (rest : Text) :
    Parser.parseLiteral (cs.length + 1) rule (escapeBytes (textOf cs) ++ quote :: rest) =
      some (rule ++ cs.map (fun c => ⟨.CHAR, c.toNat⟩), rest) := by
  induction h generalizing rule with
  | nil =>
    rw [List.map_nil, List.append_nil]
    rfl
  | plain hc h₀ _ ih =>
    rw [textOf_cons, escapeBytes_append, List.append_assoc, List.length_cons,
      parseLiteral_readAs (readAs_escapeBytes hc h₀), ih hn, List.map_cons, List.append_assoc,
      List.singleton_append]
  | escape hc _ ih => exact absurd hn (Nat.succ_ne_zero _)

theorem hexDigits_spec : ∀ d < 16, (hexDigits.getD d '0').toNat < 0x80 ∧
    grammarLiteralEscapeRe (hexDigits.getD d '0').toNat = false ∧
    hexDigit (hexDigits.getD d '0').toNat = some d := by decide

/-- An escape sequence of the text makes the reader fail, or it is read as one character, or the
literal ends behind it. -/
inductive Misread (t : Text) : Prop
  | fails (hquote : peek t ≠ quote) (hend : peek t ≠ 0) (h : ∀ rest, parseChar (t ++ rest) = none)
  | reads (c : Nat) (h : ReadAs t c)
  | closes (c : Nat) (u : Text) (ht : t = u ++ [quote]) (h : ReadAs u c)

/-- The escape sequence of a control character that has no letter. -/
theorem readAs_hex (ha : a < 16) (hb : b < 16) :
    ReadAs (escapeBytes (textOf ['\\', 'u', '0', '0', hexDigits.getD a '0', hexDigits.getD b '0']))
      (a * 16 + b) := by
  obtain ⟨ha₁, ha₂, ha₃⟩ := hexDigits_spec a ha
  obtain ⟨hb₁, hb₂, hb₃⟩ := hexDigits_spec b hb
  generalize hexDigits.getD a '0' = x at *
  generalize hexDigits.getD b '0' = y at *
  have htext : escapeBytes (textOf ['\\', 'u', '0', '0', x, y]) =
      [92, 117, 48, 48, x.toNat, y.toNat] := by
    rw [textOf_ascii (by simp [ha₁, hb₁]), escapeBytes_of_none]
    · rfl
    · simp only [List.map_cons, List.map_nil, List.forall_mem_cons]
      exact ⟨rfl, rfl, rfl, rfl, ha₂, hb₂, fun _ h => absurd h List.not_mem_nil⟩
  rw [htext]
  have hfirst : (92 : Nat) ≠ quote ∧ (92 : Nat) ≠ 0 := by decide
  refine ⟨hfirst.1, hfirst.2, fun rest => ?_⟩
  have hparse : parseChar ([92, 117, 48, 48, x.toNat, y.toNat] ++ rest) =
      parseHex 2 0 (x.toNat :: y.toNat :: rest) := rfl
  rw [hparse, parseHex, peek, List.headD_cons, ha₃, Option.bind_some, List.tail_cons, parseHex,
    peek, List.headD_cons, hb₃, Option.bind_some, List.tail_cons, parseHex]
  congr 2
  omega

theorem misread_dumpEscapedChar (h : NeedsEscape c) :
    Misread (escapeBytes (textOf (dumpEscapedChar c))) := by
  unfold dumpEscapedChar
  split_ifs with h₁ h₂ h₃ h₄ h₅ h₆ h₇ h₈
  · exact .fails (by decide) (by decide) fun rest => rfl
  · exact .reads 9 ⟨by decide, by decide, fun rest => rfl⟩
  · exact .reads 10 ⟨by decide, by decide, fun rest => rfl⟩
  · exact .fails (by decide) (by decide) fun rest => rfl
  · exact .reads 13 ⟨by decide, by decide, fun rest => rfl⟩
  · -- the backslash in front of the quote takes the one that is written for the quote
    exact .closes backslash [backslash, backslash] (by decide)
      ⟨by decide, by decide, fun rest => rfl⟩
  · exact .reads backslash ⟨by decide, by decide, fun rest => rfl⟩
  · exact .reads _ (readAs_hex (by omega) (by omega))
  · rw [NeedsEscape] at h
    omega

theorem two_le_dumpEscapedChar (h : NeedsEscape c) : 2 ≤ (dumpEscapedChar c).length := by
  rw [NeedsEscape] at h
  unfold dumpEscapedChar
  split_ifs
  all_goals first | exact Nat.le_add_left _ _ | omega

theorem Escapes.le_length (h : Escapes n cs) : n ≤ cs.length := by
  induction h with
  | nil => exact Nat.le_refl _
  | plain _ _ _ ih => exact Nat.le_succ_of_le ih
  | escape hc _ ih =>
    have := two_le_dumpEscapedChar hc
    rw [List.length_append]
    omega

/-- A literal that is read at all has at most as many characters as its text, less one for each
escape sequence of the text. -/
theorem length_parseLiteral (h : Escapes n cs)
    (hparse : Parser.parseLiteral fuel rule (escapeBytes (textOf cs) ++ quote :: rest) =
      some (rule', pos)) : rule'.length + n ≤ rule.length + cs.length := by
  induction h generalizing fuel rule with
  | nil =>
    cases fuel with
    | zero => cases hparse
    | succ fuel =>
      cases hparse
      exact Nat.le_refl _
  | plain hc h₀ _ ih =>
    cases fuel with
    | zero => cases hparse
    | succ fuel =>
      rw [textOf_cons, escapeBytes_append, List.append_assoc,
        parseLiteral_readAs (readAs_escapeBytes hc h₀)] at hparse
      have := ih hparse
      rw [List.length_append, List.length_singleton] at this
      rw [List.length_cons]
      omega
  | @escape c n cs hc hcs ih =>
    have htwo := two_le_dumpEscapedChar hc
    have hle := hcs.le_length
    rw [textOf_append, escapeBytes_append, List.append_assoc] at hparse
    rw [List.length_append]
    cases fuel with
    | zero => cases hparse
    | succ fuel =>
      rcases misread_dumpEscapedChar hc with
        ⟨hquote, hend, hfails⟩ | ⟨x, hreads⟩ | ⟨x, u, hclose, hreads⟩
      · rw [Parser.parseLiteral, peek_append hend, if_neg hquote, if_neg hend, hfails] at hparse
        cases hparse
      · rw [parseLiteral_readAs hreads] at hparse
        have := ih hparse
        rw [List.length_append, List.length_singleton] at this
        omega
      · rw [hclose, List.append_assoc, parseLiteral_readAs hreads] at hparse
        cases fuel with
        | zero => cases hparse
        | succ fuel =>
          cases hparse
          rw [List.length_append, List.length_singleton]
          omega

/-- A literal is read as one item of a sequence, which is the text. -/
def DenotesText (literal : Text) (text : List Char) : Prop :=
  ∃ fuel, ∀ ruleName isNested (s : Parser.SequenceState) rest, s.pos = literal ++ rest →
    Parser.itemStep ruleName isNested fuel s =
      some (s.push s.parser (s.rule ++ text.map fun c => ⟨.CHAR, c.toNat⟩)
        (parseSpace isNested false rest))

theorem itemStep_formatLiteral {s : Parser.SequenceState} {ruleName : Text}
    (h : s.pos = formatLiteral t ++ rest) :
    Parser.itemStep ruleName isNested fuel s =
      (Parser.parseLiteral fuel s.rule (escapeBytes t ++ quote :: rest)).map fun r =>
        s.push s.parser r.1 (parseSpace isNested false r.2) := by
  have hpos : s.pos = quote :: (escapeBytes t ++ quote :: rest) := by
    rw [h, formatLiteral, escapeBytes, List.cons_append, List.cons_append, List.append_assoc,
      List.singleton_append]
  rw [Parser.itemStep, hpos]
  rfl

theorem denotesText_iff (h : Escapes n cs) :
    DenotesText (formatLiteral (textOf cs)) cs ↔ n = 0 := by
  constructor
  · intro ⟨fuel, hread⟩
    have hstep := hread [] false ⟨⟨[], []⟩, [], 0, formatLiteral (textOf cs) ++ []⟩ [] rfl
    rw [itemStep_formatLiteral rfl] at hstep
    obtain ⟨⟨rule', pos⟩, hparse, hpush⟩ := Option.map_eq_some_iff.1 hstep
    have hlength := length_parseLiteral h hparse
    have hrule : rule' = [] ++ cs.map fun c => (⟨.CHAR, c.toNat⟩ : Element) :=
      congrArg Parser.SequenceState.rule hpush
    rw [hrule, List.nil_append, List.length_map, List.length_nil] at hlength
    omega
  · intro hn
    refine ⟨cs.length + 1, fun ruleName isNested s rest hpos => ?_⟩
    rw [itemStep_formatLiteral hpos, parseLiteral_of_escapes h hn, Option.map_some]

/-- The literal for a value is its text if and only if no string and no key of the value has a
character that JSON escapes. -/
theorem generateConstantRule_denotes_iff (v : Json) :
    DenotesText (generateConstantRule v) v.dump ↔
      ∀ s ∈ v.strings, ∀ c ∈ s, ¬ NeedsEscape c := by
  obtain ⟨n, hn, hiff⟩ := v.dumped
  rw [generateConstantRule, denotesText_iff hn, hiff]

/-- The text of the string `a\b` has two backslashes, of which the literal is read as one. -/
theorem generateConstantRule_backslash :
    Parser.parseLiteral 8 [] (generateConstantRule (.string ['a', '\\', 'b'])).tail =
        some (['"', 'a', '\\', 'b', '"'].map fun c => ⟨.CHAR, c.toNat⟩, []) ∧
      (Json.string ['a', '\\', 'b']).dump = ['"', 'a', '\\', '\\', 'b', '"'] ∧
      ¬ DenotesText (generateConstantRule (.string ['a', '\\', 'b']))
        (Json.string ['a', '\\', 'b']).dump := by
  refine ⟨by decide, by decide, fun h => ?_⟩
  obtain ⟨n, hn, hiff⟩ := (Json.string ['a', '\\', 'b']).dumped
  have hall := hiff.1 ((denotesText_iff hn).1 h) ['a', '\\', 'b'] (.head _) '\\' (.tail _ (.head _))
  exact hall (.inr (.inr rfl))

end ActQuant.Grammar
