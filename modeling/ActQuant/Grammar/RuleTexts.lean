import ActQuant.Grammar.Reading

namespace ActQuant.Grammar
open Lib

/-! The texts of operators, literals and classes, and grammars as tables of rules. -/

namespace Parser

/-! ### Operators -/

theorem isOperator_star : IsOperator [byte '*'] 0 none := by
  refine ⟨by decide, by decide, by decide, fun isNested rest => ⟨rfl, fun ruleName s hpos => ?_⟩⟩
  rw [SequenceState.operate, hpos]
  rfl

theorem isOperator_plus : IsOperator [byte '+'] 1 none := by
  refine ⟨by decide, by decide, by decide, fun isNested rest => ⟨rfl, fun ruleName s hpos => ?_⟩⟩
  rw [SequenceState.operate, hpos]
  rfl

theorem isOperator_optional : IsOperator [byte '?'] 0 (some 1) := by
  refine ⟨by decide, by decide, by decide, fun isNested rest => ⟨rfl, fun ruleName s hpos => ?_⟩⟩
  rw [SequenceState.operate, hpos]
  rfl

/-- `std::to_string` of a number that is not negative. -/
def decimalText (n : Nat) : Text := (Lib.decimal n).map byte

theorem isDigitChar_decimalText (n : Nat) : ∀ c ∈ decimalText n, isDigitChar c = true := by
  intro c hc
  obtain ⟨d, hd, rfl⟩ := List.mem_map.1 hc
  have hdigit := isDigit_of_mem_decimal hd
  rw [Char.isDigit, Bool.and_eq_true, decide_eq_true_iff, decide_eq_true_iff] at hdigit
  rw [isDigitChar, decide_eq_true_iff]
  exact hdigit

theorem decimal_decimalText (n : Nat) : decimal (decimalText n) = n := by
  have hfold (cs : List Char) (init : Nat) :
      (cs.map byte).foldl (fun n c => n * 10 + (c - byte '0')) init =
        Nat.ofDigitChars 10 cs init := by
    rw [List.foldl_map, Nat.ofDigitChars_eq_foldl]
    congr 1
    funext n c
    rw [Nat.mul_comm]
  rw [decimal, decimalText, hfold, Lib.decimal, Nat.ofDigitChars_ten_toDigits]

theorem parseInt_decimalText (n : Nat) (hrest : isDigitChar (peek rest) = false) :
    parseInt (decimalText n ++ rest) = some (decimalText n, rest) := by
  rw [parseInt, takeChars_append (isDigitChar_decimalText n) hrest]
  refine if_neg fun h => ?_
  exact decimal_ne_nil n (List.map_eq_nil_iff.1 h)

theorem decimalText_head (n : Nat) (rest : Text) :
    isDigitChar (peek (decimalText n ++ rest)) = true := by
  have hdigit := isDigitChar_decimalText n
  cases h : decimalText n with
  | nil => exact absurd (List.map_eq_nil_iff.1 h) (decimal_ne_nil n)
  | cons c t =>
    rw [h] at hdigit
    exact hdigit c List.mem_cons_self

theorem solid_of_digit (h : isDigitChar (peek t) = true) : Solid t := by
  refine ⟨?_, ?_, ?_, ?_, ?_⟩
  all_goals
    intro hpeek
    rw [hpeek] at h
    cases h

theorem parseSpace_decimalText (isNested : Bool) (n : Nat) (rest : Text) :
    parseSpace isNested false (decimalText n ++ rest) = decimalText n ++ rest :=
  parseSpace_solid (solid_of_digit (decimalText_head n rest)) isNested

/-- One bound in braces. -/
def exactText (m : Nat) : Text := byte '\x7b' :: (decimalText m ++ [byte '\x7d'])

/-- Two bounds in braces, the second of which may be missing. -/
def rangeText (m : Nat) (n : Option Nat) : Text :=
  byte '\x7b' :: (decimalText m ++ byte ',' :: (n.elim [] decimalText ++ [byte '\x7d']))

theorem boundsAt_exactText (isNested : Bool) (m : Nat) (rest : Text) :
    boundsAt isNested (exactText m ++ rest).tail =
      some (m, some m, parseSpace isNested false rest) := by
  have hclose : peek (byte '\x7d' :: rest) = byte '\x7d' := rfl
  rw [exactText, List.cons_append, List.tail_cons, List.append_assoc, List.singleton_append,
    boundsAt, parseSpace_decimalText, parseInt_decimalText m (by rfl), Option.bind_some]
  dsimp only
  rw [parseSpace_solid (solid_cons (by decide) rest), if_pos hclose, decimal_decimalText]
  rfl

theorem boundsAt_rangeText (isNested : Bool) (m : Nat) (n : Option Nat) (rest : Text) :
    boundsAt isNested (rangeText m n ++ rest).tail =
      some (m, n, parseSpace isNested false rest) := by
  have hcomma (t : Text) : peek (byte ',' :: t) = byte ',' := rfl
  have hclose : peek (byte '\x7d' :: rest) = byte '\x7d' := rfl
  rw [rangeText, List.cons_append, List.tail_cons, List.append_assoc, List.cons_append, boundsAt,
    parseSpace_decimalText, parseInt_decimalText m (by rfl), Option.bind_some]
  dsimp only
  rw [parseSpace_solid (solid_cons (by decide) _), if_neg (by rw [hcomma]; decide),
    if_pos (hcomma _), List.tail_cons, List.append_assoc, List.singleton_append,
    decimal_decimalText]
  cases n with
  | none =>
    rw [Option.elim_none, List.nil_append, parseSpace_solid (solid_cons (by decide) rest),
      if_neg (by rw [hclose]; decide), if_pos hclose]
    rfl
  | some b =>
    rw [Option.elim_some, parseSpace_decimalText, if_pos (decimalText_head b _),
      parseInt_decimalText b (by rfl), Option.bind_some]
    dsimp only
    rw [parseSpace_solid (solid_cons (by decide) rest), if_pos hclose, decimal_decimalText]
    rfl

/-- Braces are read as the bounds in them. -/
theorem isOperator_braces (hfits : Fits m n)
    (hbounds : ∀ isNested rest, boundsAt isNested (byte '\x7b' :: op ++ rest).tail =
      some (m, n, parseSpace isNested false rest)) : IsOperator (byte '\x7b' :: op) m n := by
  refine ⟨List.cons_ne_nil _ _, solid_cons (by decide) op, rfl, fun isNested rest => ⟨?_, ?_⟩⟩
  · have hat : operatorAt isNested (byte '\x7b' :: op ++ rest) =
        (boundsAt isNested (byte '\x7b' :: op ++ rest).tail).map fun r => (r.1, r.2.1) := rfl
    rw [hat, hbounds]
    rfl
  · intro ruleName s hpos
    have hoperate : s.operate ruleName isNested =
        (parseBounds isNested (byte '\x7b' :: op ++ rest).tail).bind fun r =>
          s.repeated ruleName r.1 r.2.1 r.2.2 := by
      rw [SequenceState.operate, hpos]
      rfl
    have hhigh : highOf n = some (maxOf n) := by
      cases n with
      | none => rfl
      | some b => exact intOf_eq (hfits.2 b rfl)
    rw [hoperate, parseBounds_eq, hbounds, Option.bind_some, intOf_eq hfits.1, Option.bind_some,
      hhigh, Option.bind_some, Option.bind_some]

theorem isOperator_exact (h : m < 2 ^ 31) : IsOperator (exactText m) m (some m) := by
  refine isOperator_braces ⟨h, ?_⟩ fun isNested rest => boundsAt_exactText isNested m rest
  intro b hb
  cases hb
  exact h

theorem isOperator_range (h : Fits m n) : IsOperator (rangeText m n) m n :=
  isOperator_braces h fun isNested rest => boundsAt_rangeText isNested m n rest

/-! ### Characters of one byte -/

theorem utf8Bytes_of_lt (h : c < 0x80) : utf8Bytes c = [c] := by
  rw [utf8Bytes, extraBytes, if_pos h]
  simp [leadByte, tailBytes]

theorem readAs_ascii (h : c < 0x80) (hzero : c ≠ 0) (hquote : c ≠ quote)
    (hescape : c ≠ backslash) : ReadAs [c] c := by
  have hread := readAs_utf8Bytes (show c < 2 ^ 21 by omega) hzero hquote hescape
  rwa [utf8Bytes_of_lt h] at hread

/-! ### Literals -/

/-- A text is read as the characters of a literal. -/
inductive LiteralText : Text → List Nat → Prop where
  | nil : LiteralText [] []
  | cons (h : ReadAs t c) (hcs : LiteralText u cs) : LiteralText (t ++ u) (c :: cs)

theorem LiteralText.parse (h : LiteralText t cs) (rule : List Element) (rest : Text) :
    parseLiteral (cs.length + 1) rule (t ++ quote :: rest) =
      some (rule ++ cs.map (fun c => ⟨.CHAR, c⟩), rest) := by
  induction h generalizing rule with
  | nil =>
    rw [List.map_nil, List.append_nil]
    rfl
  | cons h _ ih =>
    rw [List.append_assoc, List.length_cons, parseLiteral_readAs h, ih, List.map_cons,
      List.append_assoc, List.singleton_append]

theorem flat_chars (cs : List Nat) : Flat (cs.map fun c => ⟨.CHAR, c⟩) := by
  intro e he
  obtain ⟨c, _, rfl⟩ := List.mem_map.1 he
  rfl

theorem mem_single {w u : List Nat} : w ∈ ({u} : Language Nat) ↔ w = u := Iff.rfl

theorem language_chars (alts : Nat → Set (List (Sym Nat Nat))) (cs : List Nat) :
    Cfg.language alts (symbols (cs.map fun c => ⟨.CHAR, c⟩)) = {cs} := by
  induction cs with
  | nil => exact Cfg.language_nil
  | cons c cs ih =>
    have hmod : isModifier (head (cs.map fun c => (⟨.CHAR, c⟩ : Element))) = false := by
      cases cs <;> rfl
    ext w
    rw [List.map_cons, symbols]
    dsimp only
    have hclass (chr : Nat) : InClass (⟨.CHAR, c⟩ :: cs.map fun c => ⟨.CHAR, c⟩) chr ↔ chr = c := by
      have happend := inClass_append hmod ⟨.CHAR, c⟩ []
      rw [List.nil_append] at happend
      have hchar : ¬ (⟨.CHAR, c⟩ : Element).type = .CHAR_NOT := by simp
      rw [happend, InClass, head_cons, if_neg hchar, listed_last]
      simp [head, eq_comm]
    rw [mem_single]
    cases w with
    | nil => exact iff_of_false Cfg.not_derives_char (List.cons_ne_nil _ _).symm
    | cons a w =>
      rw [Cfg.mem_language, Cfg.derives_char_cons, hclass, ← Cfg.mem_language, ih, mem_single,
        List.cons_eq_cons]

theorem isItem_literal (h : LiteralText t cs) (hne : cs ≠ []) :
    IsItem M (quote :: (t ++ [quote])) {cs} := by
  refine ⟨rfl, fun ruleName isNested s rest hs hpos hrest => ?_⟩
  have hpeek : peek s.pos = quote := by
    rw [hpos]
    rfl
  have hstep : itemStep ruleName isNested (cs.length + 1) s = some (s.push s.parser
      (s.rule ++ cs.map fun c => ⟨.CHAR, c⟩) (parseSpace isNested false rest)) := by
    rw [itemStep, hpeek]
    dsimp only
    rw [if_pos rfl, hpos, List.cons_append, List.tail_cons, List.append_assoc,
      List.singleton_append, h.parse]
    rfl
  refine ⟨_, _, .single ⟨by rw [hpeek]; decide, _, hstep⟩, ?_, flat_chars cs, .refl _ _,
    fun G _ => language_chars _ cs⟩
  exact fun h => hne (List.map_eq_nil_iff.1 h)

/-! ### Classes -/

/-- A text is read as one character of a class. -/
structure ClassChar (t : Text) (c : Nat) : Prop where
  not_close : peek t ≠ byte ']'
  not_end : peek t ≠ 0
  parse : ∀ rest, parseChar (t ++ rest) = some (c, rest)

theorem classChar_ascii (h : c < 0x80) (hzero : c ≠ 0) (hclose : c ≠ byte ']')
    (hescape : c ≠ backslash) : ClassChar [c] c := by
  refine ⟨hclose, hzero, fun rest => ?_⟩
  have hdecode := decodeUtf8_utf8Bytes (show c < 2 ^ 21 by omega) rest
  rw [utf8Bytes_of_lt h] at hdecode
  have hpeek : peek ([c] ++ rest) = c := rfl
  rw [parseChar, hpeek, if_neg hescape, if_pos hzero, hdecode]

/-- A text is read as the ranges of a class. -/
inductive ClassText : Text → List (Nat × Option Nat) → Prop where
  | nil : ClassText [] []
  | char (h : ClassChar t c) (hnext : peek u ≠ byte '-' ∨ u = [byte '-']) (hrs : ClassText u rs) :
      ClassText (t ++ u) ((c, none) :: rs)
  | range (h : ClassChar t c) (h' : ClassChar t' c') (hrs : ClassText u rs) :
      ClassText (t ++ byte '-' :: (t' ++ u)) ((c, some c') :: rs)

def rangeElements (type : Gretype) (r : Nat × Option Nat) : List Element :=
  ⟨type, r.1⟩ :: r.2.toList.map fun hi => ⟨.CHAR_RNG_UPPER, hi⟩

/-- The elements of a class. -/
def classElements (type : Gretype) : List (Nat × Option Nat) → List Element
  | [] => []
  | r :: rs => rangeElements type r ++ classElements .CHAR_ALT rs

theorem ClassText.parse (h : ClassText t rs) (startType : Gretype) (hk : k ≤ rule.length)
    (rest : Text) : parseRanges startType k (rs.length + 1) rule (t ++ byte ']' :: rest) =
      some (rule ++ classElements (if k < rule.length then .CHAR_ALT else startType) rs, rest) := by
  induction h generalizing rule with
  | nil =>
    rw [classElements, List.append_nil]
    rfl
  | @char t c u rs h hnext _ ih =>
    have hlen : k <
        (rule ++ [(⟨if k < rule.length then .CHAR_ALT else startType, c⟩ : Element)]).length := by
      rw [List.length_append, List.length_singleton]
      omega
    have hno : ¬ (peek (u ++ byte ']' :: rest) = byte '-' ∧
        peek (u ++ byte ']' :: rest).tail ≠ byte ']') := by
      rintro ⟨hdash, hclose⟩
      rcases hnext with hnext | rfl
      · cases u with
        | nil => exact absurd hdash (show byte ']' ≠ byte '-' by decide)
        | cons b u => exact hnext hdash
      · exact hclose rfl
    rw [List.append_assoc, List.length_cons, parseRanges, peek_append h.not_end,
      if_neg h.not_close, if_neg h.not_end, h.parse, Option.bind_some]
    dsimp only
    rw [if_neg hno, ih hlen.le, if_pos hlen, List.append_assoc, classElements]
    rfl
  | @range t c t' c' u rs h h' _ ih =>
    have hlen : k < (rule ++ [(⟨if k < rule.length then .CHAR_ALT else startType, c⟩ : Element)] ++
        [(⟨.CHAR_RNG_UPPER, c'⟩ : Element)]).length := by
      rw [List.length_append, List.length_append, List.length_singleton, List.length_singleton]
      omega
    have hdash : peek (byte '-' :: (t' ++ (u ++ byte ']' :: rest))) = byte '-' ∧
        peek (t' ++ (u ++ byte ']' :: rest)) ≠ byte ']' := by
      rw [peek_append h'.not_end]
      exact ⟨rfl, h'.not_close⟩
    rw [List.append_assoc, List.cons_append, List.append_assoc, List.length_cons, parseRanges,
      peek_append h.not_end, if_neg h.not_close, if_neg h.not_end, h.parse, Option.bind_some]
    dsimp only
    rw [List.tail_cons, if_pos hdash, peek_append h'.not_end, if_neg h'.not_end, h'.parse,
      Option.bind_some]
    dsimp only
    rw [ih hlen.le, if_pos hlen, List.append_assoc, List.append_assoc, classElements]
    rfl

/-- The characters of ranges. -/
def InRanges (rs : List (Nat × Option Nat)) (c : Nat) : Prop :=
  ∃ r ∈ rs, r.1 ≤ c ∧ c ≤ r.2.getD r.1

theorem listed_classElements (htype : type ≠ .CHAR_ANY) :
    Listed c (classElements type (r :: rs)) ↔ InRanges (r :: rs) c := by
  induction rs generalizing type r with
  | nil =>
    obtain ⟨lo, _ | hi⟩ := r
    · change Listed c [⟨type, lo⟩] ↔ _
      rw [listed_last]
      simp only [InRanges, htype, listed_nil, List.mem_singleton, exists_eq_left]
      simp
      omega
    · change Listed c [⟨type, lo⟩, ⟨.CHAR_RNG_UPPER, hi⟩] ↔ _
      rw [listed_range rfl]
      simp [InRanges, listed_nil]
  | cons r' rs ih =>
    have hrest : Listed c (classElements .CHAR_ALT (r' :: rs)) ↔ InRanges (r' :: rs) c :=
      ih (by simp)
    have hhead : (head (classElements .CHAR_ALT (r' :: rs))).type = .CHAR_ALT := rfl
    have hranges : InRanges (r :: r' :: rs) c ↔
        (r.1 ≤ c ∧ c ≤ r.2.getD r.1) ∨ InRanges (r' :: rs) c := List.exists_mem_cons_iff _ r _
    rw [classElements, hranges, ← hrest]
    obtain ⟨lo, _ | hi⟩ := r
    · change Listed c (⟨type, lo⟩ :: classElements .CHAR_ALT (r' :: rs)) ↔ _
      rw [listed_single (by rw [hhead]; simp)]
      simp only [hhead, htype, false_or, true_and, Option.getD_none]
      exact or_congr (by omega) Iff.rfl
    · change Listed c
        (⟨type, lo⟩ :: ⟨.CHAR_RNG_UPPER, hi⟩ :: classElements .CHAR_ALT (r' :: rs)) ↔ _
      rw [listed_range rfl]
      simp only [hhead, true_and, Option.getD_some]

theorem isModifier_classElements : ∀ rs, ∀ e ∈ classElements .CHAR_ALT rs, isModifier e = true := by
  intro rs
  induction rs with
  | nil => exact fun e he => absurd he List.not_mem_nil
  | cons r rs ih =>
    intro e he
    rcases List.mem_append.1 he with he | he
    · obtain ⟨lo, _ | hi⟩ := r
      · rw [List.mem_singleton.1 he]
        rfl
      · rcases List.mem_cons.1 he with rfl | he
        · rfl
        · rw [List.mem_singleton.1 he]
          rfl
    · exact ih e he

theorem symbols_modifiers (h : ∀ e ∈ es, isModifier e = true) : symbols es = [] := by
  induction es with
  | nil => rfl
  | cons e es ih =>
    obtain ⟨he, hes⟩ := List.forall_mem_cons.1 h
    rw [isModifier, decide_eq_true_iff] at he
    rcases he with he | he
    all_goals
      rw [symbols, he]
      exact ih hes

/-- The words of one character. -/
def chars (p : Nat → Prop) : Language Nat := {w | ∃ c, p c ∧ w = [c]}

theorem language_class (alts : Nat → Set (List (Sym Nat Nat)))
    (htype : type = .CHAR ∨ type = .CHAR_NOT) :
    Cfg.language alts (symbols (classElements type (r :: rs))) =
      chars fun c => if type = .CHAR_NOT then ¬ InRanges (r :: rs) c else InRanges (r :: rs) c := by
  have htail : symbols ((rangeElements type r).tail ++ classElements .CHAR_ALT rs) = [] := by
    apply symbols_modifiers
    intro e he
    obtain ⟨lo, _ | hi⟩ := r
    · exact isModifier_classElements rs e he
    · rcases List.mem_cons.1 he with rfl | he
      · rfl
      · exact isModifier_classElements rs e he
  have hsymbols : symbols (classElements type (r :: rs)) =
      [.char (InClass (classElements type (r :: rs)))] := by
    have hsplit : classElements type (r :: rs) =
        ⟨type, r.1⟩ :: ((rangeElements type r).tail ++ classElements .CHAR_ALT rs) := rfl
    rw [hsplit, symbols, htail]
    rcases htype with rfl | rfl <;> rfl
  have hany : type ≠ .CHAR_ANY := by
    rcases htype with rfl | rfl <;> simp
  have hhead : (head (classElements type (r :: rs))).type = type := rfl
  ext w
  rw [hsymbols]
  cases w with
  | nil =>
    refine iff_of_false Cfg.not_derives_char ?_
    rintro ⟨c, _, hw⟩
    cases hw
  | cons c w =>
    rw [Cfg.mem_language, Cfg.derives_char_cons, Cfg.derives_nil, InClass, hhead,
      listed_classElements hany]
    constructor
    · rintro ⟨hc, rfl⟩
      exact ⟨c, hc, rfl⟩
    · rintro ⟨c', hc, hw⟩
      cases hw
      exact ⟨hc, rfl⟩

theorem flat_classElements (htype : isEndOfSequence ⟨type, 0⟩ = false)
    (rs : List (Nat × Option Nat)) :
    Flat (classElements type rs) := by
  induction rs generalizing type with
  | nil => exact flat_nil
  | cons r rs ih =>
    refine Flat.append ?_ (ih rfl)
    obtain ⟨lo, _ | hi⟩ := r
    · exact flat_single htype
    · exact (flat_single (e := ⟨type, lo⟩) htype).append (flat_single rfl)

/-- The text of a class. -/
def classText (negated : Bool) (t : Text) : Text :=
  byte '[' :: ((if negated then [byte '^'] else []) ++ t ++ [byte ']'])

theorem isItem_class (negated : Bool) (h : ClassText t rs) (hne : rs ≠ [])
    (hcaret : negated = false → peek t ≠ byte '^') :
    IsItem M (classText negated t)
      (chars fun c => if negated then ¬ InRanges rs c else InRanges rs c) := by
  refine ⟨rfl, fun ruleName isNested s rest hs hpos hrest => ?_⟩
  have hpeek : peek s.pos = byte '[' := by
    rw [hpos]
    rfl
  have hzero : peek t ≠ 0 := by
    cases h with
    | nil => exact absurd rfl hne
    | char h => rw [peek_append h.not_end]; exact h.not_end
    | range h => rw [peek_append h.not_end]; exact h.not_end
  have hstep : itemStep ruleName isNested (rs.length + 1) s = some (s.push s.parser
      (s.rule ++ classElements (if negated then .CHAR_NOT else .CHAR) rs)
        (parseSpace isNested false rest)) := by
    have hparse := h.parse (if negated then .CHAR_NOT else .CHAR) (Nat.le_refl s.rule.length) rest
    rw [if_neg (Nat.lt_irrefl _)] at hparse
    have hclass : itemStep ruleName isNested (rs.length + 1) s =
        (parseRanges (if peek s.pos.tail = byte '^' then .CHAR_NOT else .CHAR) s.rule.length
          (rs.length + 1) s.rule
          (if peek s.pos.tail = byte '^' then s.pos.tail.tail else s.pos.tail)).map fun r =>
            s.push s.parser r.1 (parseSpace isNested false r.2) := by
      rw [itemStep, hpeek]
      rfl
    rw [hclass, hpos, classText, List.cons_append, List.tail_cons, List.append_assoc,
      List.append_assoc, List.singleton_append]
    cases negated with
    | true =>
      have hyes : peek (byte '^' :: (t ++ byte ']' :: rest)) = byte '^' := rfl
      simp only [reduceIte, List.singleton_append, hyes, List.tail_cons] at hparse ⊢
      rw [hparse]
      rfl
    | false =>
      have hno : ¬ peek (t ++ byte ']' :: rest) = byte '^' := by
        rw [peek_append hzero]
        exact hcaret rfl
      simp only [Bool.false_eq_true, reduceIte, List.nil_append, hno] at hparse ⊢
      rw [hparse]
      rfl
  cases rs with
  | nil => exact absurd rfl hne
  | cons r rs =>
    refine ⟨_, _, .single ⟨by rw [hpeek]; decide, _, hstep⟩, ?_, ?_, .refl _ _, fun G _ => ?_⟩
    · exact List.append_ne_nil_of_left_ne_nil (List.cons_ne_nil _ _) _
    · apply flat_classElements
      cases negated <;> rfl
    · rw [language_class]
      · cases negated <;> rfl
      · cases negated <;> simp

theorem isItem_ranges (h : ClassText t rs) (hne : rs ≠ []) (hcaret : peek t ≠ byte '^') :
    IsItem M (byte '[' :: (t ++ [byte ']'])) (chars (InRanges rs)) :=
  isItem_class false h hne fun _ => hcaret

end Parser

end ActQuant.Grammar
