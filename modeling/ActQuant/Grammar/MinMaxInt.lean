import ActQuant.Grammar.RuleTable

namespace ActQuant.Grammar
open Lib ActQuant.Grammar.Parser

/-! The grammar for an integer between two bounds. -/

/-! ### The texts -/

def intMin : Int := -2 ^ 31
def intMax : Int := 2 ^ 31 - 1

/-- `digit_range`. -/
def digitRange (fromDigit toDigit : Nat) : Text :=
  byte '[' :: ((if fromDigit = toDigit then [fromDigit] else [fromDigit, byte '-', toDigit]) ++
    [byte ']'])

def anyDigit : Text := [byte '[', byte '0', byte '-', byte '9', byte ']']

/-- `more_digits`. -/
def moreDigits (minDigits maxDigits : Nat) : Text :=
  if minDigits = maxDigits ∧ minDigits = 1 then anyDigit
  else
    anyDigit ++ byte '\x7b' :: (decimalText minDigits ++
      (if maxDigits ≠ minDigits then
        byte ',' :: (if (maxDigits : Int) ≠ intMax then decimalText maxDigits else [])
      else []) ++ [byte '\x7d'])

/-- How many digits two numbers share at their beginnings. -/
def sharedDigits : Text → Text → Nat
  | a :: as, b :: bs => if a = b then sharedDigits as bs + 1 else 0
  | _, _ => 0

def sp : Text := [byte ' ']

/-- The group of `uniform_range` behind the digits that are shared; the last two are what the
recursive calls write. -/
def splitText (f t : Nat) (fromSub toSub uniformFrom uniformTo : Text) : Text :=
  let subLen := fromSub.length
  let subZeros := List.replicate subLen (byte '0')
  let subNines := List.replicate subLen (byte '9')
  let first :=
    if fromSub = subZeros then digitRange f (t - 1) ++ (sp ++ moreDigits subLen subLen)
    else
      byte '[' :: f :: byte ']' :: (sp ++ byte '(' :: (uniformFrom ++ byte ')' ::
        if f < t - 1 then
          barText ++ ((if toSub = subNines then digitRange (f + 1) t
            else digitRange (f + 1) (t - 1)) ++ (sp ++ moreDigits subLen subLen))
        else []))
  let toReached := fromSub ≠ subZeros ∧ f < t - 1 ∧ toSub = subNines
  byte '(' :: (first ++
    (if toReached then [] else barText ++ (digitRange t t ++ (sp ++ uniformTo))) ++ [byte ')'])

/-- `uniform_range`; the first argument is at least the number of digits. -/
def uniformRange : Nat → Text → Text → Text
  | 0, _, _ => []
  | depth + 1, fromText, toText =>
    let i := sharedDigits fromText toText
    let shared := if 0 < i then quote :: (fromText.take i ++ [quote]) else []
    match fromText.drop i, toText.drop i with
    | f :: fromSub, t :: toSub =>
      let shared := shared ++ if 0 < i then sp else []
      let subLen := fromSub.length
      if 0 < subLen then
        shared ++ splitText f t fromSub toSub
          (uniformRange depth fromSub (List.replicate subLen (byte '9')))
          (uniformRange depth (List.replicate subLen (byte '0')) toSub)
      else shared ++ [byte '[', f, byte '-', t, byte ']']
    | _, _ => shared

/-- The loop over the numbers of digits, and the range behind it. -/
def uniformRanges : Nat → Nat → Text → Text → Text
  | 0, _, minS, maxS => uniformRange minS.length minS maxS
  | n + 1, digits, minS, maxS =>
    uniformRange digits minS (List.replicate digits (byte '9')) ++ (barText ++
      uniformRanges n (digits + 1) (byte '1' :: List.replicate digits (byte '0')) maxS)

/-- The branch of two bounds that are not negative. -/
def betweenBounds (minValue maxValue : Nat) : Text :=
  let minS := decimalText minValue
  let maxS := decimalText maxValue
  uniformRanges (maxS.length - minS.length) minS.length minS maxS

/-- A minus in front of a group. -/
def minusText (t : Text) : Text :=
  quote :: byte '-' :: quote :: (sp ++ byte '(' :: (t ++ [byte ')']))

/-- `_build_min_max_int`; `none` is the exception, or the end of the fuel. -/
def buildMinMaxInt : Nat → Int → Int → Nat → Bool → Option Text
  | 0, _, _, _, _ => none
  | fuel + 1, minValue, maxValue, decimalsLeft, topLevel =>
    let hasMin := minValue ≠ intMin
    let hasMax := maxValue ≠ intMax
    if hasMin ∧ hasMax then
      if minValue < 0 ∧ maxValue < 0 then
        (buildMinMaxInt fuel (-maxValue) (-minValue) decimalsLeft true).map minusText
      else if minValue < 0 then
        (buildMinMaxInt fuel 0 (-minValue) decimalsLeft true).map fun t =>
          minusText t ++ (barText ++ betweenBounds 0 maxValue.toNat)
      else some (betweenBounds minValue.toNat maxValue.toNat)
    else
      let lessDecimals := max (decimalsLeft - 1) 1
      if hasMin then
        if minValue < 0 then
          (buildMinMaxInt fuel intMin (-minValue) decimalsLeft false).map fun t =>
            minusText t ++ (barText ++ (digitRange (byte '0') (byte '0') ++ (barText ++
              (digitRange (byte '1') (byte '9') ++ (sp ++ moreDigits 0 (decimalsLeft - 1))))))
        else if minValue = 0 then
          some (if topLevel then
            digitRange (byte '0') (byte '0') ++ (barText ++
              (digitRange (byte '1') (byte '9') ++ (sp ++ moreDigits 0 lessDecimals)))
          else moreDigits 1 decimalsLeft)
        else if minValue ≤ 9 then
          let c := byte '0' + minValue.toNat
          let rangeStart := if topLevel then byte '1' else byte '0'
          some ((if rangeStart < c then
              digitRange rangeStart (c - 1) ++ (sp ++ (moreDigits 1 lessDecimals ++ barText))
            else []) ++ (digitRange c (byte '9') ++ (sp ++ moreDigits 0 lessDecimals)))
        else
          let minS := decimalText minValue.toNat
          let len := minS.length
          let c := peek minS
          (buildMinMaxInt fuel (Parser.decimal minS.tail) intMax lessDecimals false).map fun t =>
            (if byte '1' < c then
              digitRange (if topLevel then byte '1' else byte '0') (c - 1) ++
                (sp ++ (moreDigits len lessDecimals ++ barText))
            else []) ++
              (digitRange c c ++ (sp ++ byte '(' :: (t ++ [byte ')'])) ++
                if c < byte '9' then
                  barText ++ (digitRange (c + 1) (byte '9') ++
                    (sp ++ moreDigits (len - 1) lessDecimals))
                else [])
      else if hasMax then
        if 0 ≤ maxValue then
          (buildMinMaxInt fuel 0 maxValue decimalsLeft true).map fun t =>
            (if topLevel then
              quote :: byte '-' :: quote :: (sp ++ (digitRange (byte '1') (byte '9') ++
                (sp ++ (moreDigits 0 lessDecimals ++ barText))))
            else []) ++ t
        else (buildMinMaxInt fuel (-maxValue) intMax decimalsLeft false).map minusText
      else none

/-- The fragment for the bounds of a schema, where a missing bound is that of the type. -/
def integerFragment (minimum maximum : Option Int) : Option Text :=
  buildMinMaxInt 16 (minimum.getD intMin) (maximum.getD intMax) 16 true

/-! ### Digits -/

def Digits (ds : Text) : Prop := ∀ c ∈ ds, isDigitChar c = true

theorem isDigitChar_iff : isDigitChar c = true ↔ 48 ≤ c ∧ c ≤ 57 := decide_eq_true_iff

theorem digits_cons : Digits (c :: ds) ↔ isDigitChar c = true ∧ Digits ds := List.forall_mem_cons

theorem Digits.append (h : Digits ds) (h' : Digits ds') : Digits (ds ++ ds') := by
  intro c hc
  rcases List.mem_append.1 hc with hc | hc
  · exact h c hc
  · exact h' c hc

theorem digits_replicate (n : Nat) (h : isDigitChar c = true) : Digits (List.replicate n c) := by
  intro d hd
  rwa [List.eq_of_mem_replicate hd]

theorem decimal_foldl (ds : Text) (init : Nat) :
    ds.foldl (fun n c => n * 10 + (c - byte '0')) init =
      init * 10 ^ ds.length + Parser.decimal ds := by
  induction ds generalizing init with
  | nil => simp [Parser.decimal]
  | cons c ds ih =>
    rw [Parser.decimal, List.foldl_cons, List.foldl_cons, ih, ih (0 * 10 + _), List.length_cons,
      Nat.pow_succ]
    ring

theorem decimal_cons (c : Nat) (ds : Text) :
    Parser.decimal (c :: ds) = (c - 48) * 10 ^ ds.length + Parser.decimal ds := by
  rw [Parser.decimal, List.foldl_cons, decimal_foldl, Nat.zero_mul, Nat.zero_add]
  rfl

theorem decimal_append (ds ds' : Text) :
    Parser.decimal (ds ++ ds') = Parser.decimal ds * 10 ^ ds'.length + Parser.decimal ds' := by
  rw [Parser.decimal, List.foldl_append, decimal_foldl]
  rfl

theorem decimal_lt (h : Digits ds) : Parser.decimal ds < 10 ^ ds.length := by
  induction ds with
  | nil => exact Nat.zero_lt_one
  | cons c ds ih =>
    obtain ⟨hc, hds⟩ := digits_cons.1 h
    have hlt := ih hds
    have hle : (c - 48) * 10 ^ ds.length ≤ 9 * 10 ^ ds.length :=
      Nat.mul_le_mul_right _ (by rw [isDigitChar_iff] at hc; omega)
    rw [decimal_cons, List.length_cons, Nat.pow_succ]
    omega

/-- How numbers with leading digits compare. -/
theorem leading_le_iff {K a b x y : Nat} (hx : x < K) (hy : y < K) :
    a * K + x ≤ b * K + y ↔ a < b ∨ a = b ∧ x ≤ y := by
  rcases Nat.lt_trichotomy a b with hlt | rfl | hgt
  · have hle : (a + 1) * K ≤ b * K := Nat.mul_le_mul_right K hlt
    rw [Nat.succ_mul] at hle
    exact iff_of_true (by omega) (.inl hlt)
  · simp
  · have hle : (b + 1) * K ≤ a * K := Nat.mul_le_mul_right K hgt
    rw [Nat.succ_mul] at hle
    exact iff_of_false (by omega) (by omega)

theorem decimal_injective (h : Digits ds) (h' : Digits ds') (hlen : ds.length = ds'.length)
    (hval : Parser.decimal ds = Parser.decimal ds') : ds = ds' := by
  induction ds generalizing ds' with
  | nil => exact (List.length_eq_zero_iff.1 hlen.symm).symm
  | cons c ds ih =>
    cases ds' with
    | nil => cases hlen
    | cons c' ds' =>
      obtain ⟨hc, hds⟩ := digits_cons.1 h
      obtain ⟨hc', hds'⟩ := digits_cons.1 h'
      have hlen' := Nat.succ.inj hlen
      have hlt := decimal_lt hds
      have hlt' := decimal_lt hds'
      rw [isDigitChar_iff] at hc hc'
      rw [decimal_cons, decimal_cons, hlen'] at hval
      rw [hlen'] at hlt
      have hle := (leading_le_iff hlt hlt').1 hval.le
      have hge := (leading_le_iff hlt' hlt).1 hval.ge
      obtain rfl : c = c' := by omega
      rw [ih hds hds' hlen' (by omega)]

theorem digits_decimalText (n : Nat) : Digits (decimalText n) := isDigitChar_decimalText n

theorem length_decimalText_le_iff (hk : 0 < k) : (decimalText n).length ≤ k ↔ n < 10 ^ k := by
  rw [decimalText, List.length_map]
  exact Nat.length_toDigits_le_iff (by decide) hk

theorem length_decimalText_pos (n : Nat) : 0 < (decimalText n).length := by
  rw [decimalText, List.length_map, List.length_pos_iff]
  exact decimal_ne_nil n

theorem pow_le_of_length (h : k < (decimalText n).length) (hk : 0 < k) : 10 ^ k ≤ n := by
  by_contra hlt
  exact absurd ((length_decimalText_le_iff hk).2 (Nat.lt_of_not_le hlt)) (Nat.not_le.2 h)

/-- Digits of which the first is not zero are the text of their number. -/
theorem decimalText_decimal (h : Digits ds) (hlead : 10 ^ (ds.length - 1) ≤ Parser.decimal ds) :
    decimalText (Parser.decimal ds) = ds := by
  cases ds with
  | nil => exact absurd hlead (by decide)
  | cons c ds =>
    have hlt := decimal_lt h
    refine decimal_injective (digits_decimalText _) h ?_ (decimal_decimalText _)
    have hle := (length_decimalText_le_iff (Nat.succ_pos ds.length)).2 hlt
    refine Nat.le_antisymm hle ?_
    by_contra hshort
    rw [List.length_cons, Nat.add_sub_cancel] at hlead
    cases hlen : ds.length with
    | zero =>
      have hpos := length_decimalText_pos (Parser.decimal (c :: ds))
      rw [List.length_cons] at hshort
      omega
    | succ k =>
      rw [List.length_cons, Nat.not_le, Nat.lt_succ_iff,
        length_decimalText_le_iff (by omega)] at hshort
      omega

/-! ### Languages of digits -/

theorem cons_mem_chars_mul {p : Nat → Prop} {l : Language Nat} {c : Nat} {u : List Nat} :
    c :: u ∈ chars p * l ↔ p c ∧ u ∈ l := by
  rw [Language.mem_mul]
  constructor
  · rintro ⟨_, ⟨d, hd, rfl⟩, v, hv, heq⟩
    cases heq
    exact ⟨hd, hv⟩
  · exact fun h => ⟨[c], ⟨c, h.1, rfl⟩, u, h.2, rfl⟩

theorem nil_notMem_chars_mul {p : Nat → Prop} {l : Language Nat} : [] ∉ chars p * l := by
  rw [Language.mem_mul]
  rintro ⟨_, ⟨d, _, rfl⟩, v, _, heq⟩
  cases heq

theorem mem_chars_pow {p : Nat → Prop} {k : Nat} {w : List Nat} :
    w ∈ chars p ^ k ↔ w.length = k ∧ ∀ c ∈ w, p c := by
  induction k generalizing w with
  | zero =>
    rw [pow_zero, Language.mem_one, List.length_eq_zero_iff]
    exact ⟨fun h => ⟨h, h ▸ fun _ hc => absurd hc List.not_mem_nil⟩, fun h => h.1⟩
  | succ k ih =>
    rw [pow_succ']
    cases w with
    | nil => exact iff_of_false nil_notMem_chars_mul (fun h => nomatch h.1)
    | cons c w =>
      rw [cons_mem_chars_mul, ih, List.length_cons, List.forall_mem_cons]
      exact ⟨fun h => ⟨congrArg Nat.succ h.2.1, h.1, h.2.2⟩,
        fun h => ⟨h.2.1, Nat.succ.inj h.1, h.2.2⟩⟩

/-- Between so many and so many digits. -/
def digitStrings (a b : Nat) : Language Nat := {w | Digits w ∧ a ≤ w.length ∧ w.length ≤ b}

/-- So many digits, of a number between two bounds. -/
def numerals (n lo hi : Nat) : Language Nat :=
  {w | Digits w ∧ w.length = n ∧ lo ≤ Parser.decimal w ∧ Parser.decimal w ≤ hi}

theorem mem_digitStrings {a b : Nat} {w : List Nat} :
    w ∈ digitStrings a b ↔ Digits w ∧ a ≤ w.length ∧ w.length ≤ b := Iff.rfl

theorem mem_numerals {n lo hi : Nat} {w : List Nat} : w ∈ numerals n lo hi ↔
    Digits w ∧ w.length = n ∧ lo ≤ Parser.decimal w ∧ Parser.decimal w ≤ hi := Iff.rfl

theorem powers_digits (a b : Nat) :
    powers (chars fun c => 48 ≤ c ∧ c ≤ 57) a (some b) = digitStrings a b := by
  ext w
  rw [mem_digitStrings]
  constructor
  · rintro ⟨k, ⟨ha, hb⟩, hw⟩
    obtain ⟨rfl, hdigits⟩ := mem_chars_pow.1 hw
    exact ⟨fun c hc => isDigitChar_iff.2 (hdigits c hc), ha, hb b rfl⟩
  · rintro ⟨hdigits, ha, hb⟩
    refine ⟨w.length, ⟨ha, fun b' hb' => by cases hb'; exact hb⟩, ?_⟩
    exact mem_chars_pow.2 ⟨rfl, fun c hc => isDigitChar_iff.1 (hdigits c hc)⟩

theorem isItem_digitRange (hf : isDigitChar f = true) (ht : isDigitChar t = true) (hle : f ≤ t) :
    IsItem M (digitRange f t) (chars fun c => f ≤ c ∧ c ≤ t) := by
  have hchar {c : Nat} (hc : isDigitChar c = true) : ClassChar [c] c := by
    rw [isDigitChar_iff] at hc
    refine classChar_ascii (by omega) (by omega) ?_ ?_
    · change c ≠ 93
      omega
    · change c ≠ 92
      omega
  have hcaret : f ≠ byte '^' := by
    rw [isDigitChar_iff] at hf
    change f ≠ 94
    omega
  rw [digitRange]
  split
  case isTrue heq =>
    subst heq
    have hranges : chars (InRanges [(f, none)]) = chars fun c => f ≤ c ∧ c ≤ f :=
      congrArg chars (funext fun c => by simp [InRanges])
    exact hranges ▸ isItem_ranges (.char (hchar hf) (.inl (by decide)) .nil) (List.cons_ne_nil _ _)
      hcaret
  case isFalse =>
    have hranges : chars (InRanges [(f, some t)]) = chars fun c => f ≤ c ∧ c ≤ t :=
      congrArg chars (funext fun c => by simp [InRanges])
    exact hranges ▸ isItem_ranges (.range (hchar hf) (hchar ht) .nil) (List.cons_ne_nil _ _) hcaret

theorem isItem_anyDigit : IsItem M anyDigit (chars fun c => 48 ≤ c ∧ c ≤ 57) :=
  isItem_digitRange (f := 48) (t := 57) rfl rfl (by decide)

theorem isItem_moreDigits (hab : a ≤ b) (hb : 0 < b) (hfits : b < 2 ^ 31 - 1) :
    IsItem M (moreDigits a b) (digitStrings a b) := by
  have hb' : some b ≠ some 0 := fun h => absurd (Option.some.inj h) (by omega)
  have hbound : ∀ b' ∈ some b, a ≤ b' := fun b' h => by cases h; exact hab
  rw [← powers_digits, moreDigits]
  split
  case isTrue hone =>
    obtain ⟨rfl, rfl⟩ := hone
    have hpowers : powers (chars fun c => 48 ≤ c ∧ c ≤ 57) 1 (some 1) =
        chars fun c => 48 ≤ c ∧ c ≤ 57 := by
      ext w
      constructor
      · rintro ⟨k, ⟨hle, hge⟩, hw⟩
        obtain rfl : k = 1 := Nat.le_antisymm (hge 1 rfl) hle
        rwa [pow_one] at hw
      · intro hw
        have hle (b : Nat) (hb : b ∈ some 1) : 1 ≤ b := (Option.some.inj hb).le
        exact ⟨1, ⟨Nat.le_refl 1, hle⟩, by rwa [pow_one]⟩
    rw [hpowers]
    exact isItem_anyDigit
  case isFalse hone =>
    by_cases heq : b = a
    · subst heq
      have hop := isItem_anyDigit.operate (M := M) (isOperator_exact (m := b) (by omega)) hbound hb'
      simpa [exactText] using hop
    · have hmax : (b : Int) ≠ intMax := by
        rw [intMax]
        omega
      have hfits' : Parser.Fits a (some b) := ⟨by omega, fun b' h => by cases h; omega⟩
      have hop := isItem_anyDigit.operate (M := M) (isOperator_range hfits') hbound hb'
      simpa [rangeText, heq, hmax] using hop

theorem cons_mem_numerals {f t x y k c : Nat} {u : List Nat} (hx : x < 10 ^ k) (hy : y < 10 ^ k) :
    c :: u ∈ numerals (k + 1) (f * 10 ^ k + x) (t * 10 ^ k + y) ↔
      isDigitChar c = true ∧ Digits u ∧ u.length = k ∧
        (f < c - 48 ∨ f = c - 48 ∧ x ≤ Parser.decimal u) ∧
          (c - 48 < t ∨ c - 48 = t ∧ Parser.decimal u ≤ y) := by
  rw [mem_numerals, digits_cons, List.length_cons, Nat.succ_inj, and_assoc]
  refine and_congr_right fun _ => and_congr_right fun hu => and_congr_right fun hlen => ?_
  have hlt := decimal_lt hu
  rw [hlen] at hlt
  rw [decimal_cons, hlen, leading_le_iff hx hlt, leading_le_iff hlt hy]

theorem nil_notMem_numerals {k lo hi : Nat} : [] ∉ numerals (k + 1) lo hi :=
  fun h => nomatch h.2.1

/-! ### Ranges of one length -/

theorem cons_mem_numerals_decimal {f t c : Nat} {fs ts u : List Nat} (hf : isDigitChar f = true)
    (ht : isDigitChar t = true) (hfs : Digits fs) (hts : Digits ts)
    (hlen : ts.length = fs.length) : c :: u ∈
      numerals (fs.length + 1) (Parser.decimal (f :: fs)) (Parser.decimal (t :: ts)) ↔
        (Digits u ∧ u.length = fs.length) ∧ (f < c ∨ f = c ∧ Parser.decimal fs ≤ Parser.decimal u) ∧
          (c < t ∨ c = t ∧ Parser.decimal u ≤ Parser.decimal ts) := by
  have hlt := decimal_lt hts
  rw [isDigitChar_iff] at hf ht
  rw [hlen] at hlt
  rw [decimal_cons, decimal_cons, hlen, cons_mem_numerals (decimal_lt hfs) hlt, isDigitChar_iff]
  constructor
  · rintro ⟨hc, hu, hulen, hlow, hhigh⟩
    exact ⟨⟨hu, hulen⟩, by omega, by omega⟩
  · rintro ⟨⟨hu, hulen⟩, hlow, hhigh⟩
    exact ⟨by omega, hu, hulen, by omega, by omega⟩

theorem decimal_zeros (n : Nat) : Parser.decimal (List.replicate n 48) = 0 := by
  induction n with
  | zero => rfl
  | succ n ih => rw [List.replicate_succ, decimal_cons, ih, Nat.sub_self, Nat.zero_mul]

theorem decimal_nines (n : Nat) : Parser.decimal (List.replicate n 57) + 1 = 10 ^ n := by
  induction n with
  | zero => rfl
  | succ n ih =>
    rw [List.replicate_succ, decimal_cons, List.length_replicate, Nat.add_assoc, ih, Nat.pow_succ]
    omega

/-- So many digits of any number. -/
theorem digitStrings_eq (k : Nat) : digitStrings k k = numerals k 0 (10 ^ k - 1) := by
  ext w
  rw [mem_digitStrings, mem_numerals]
  constructor
  · rintro ⟨hw, hle, hge⟩
    obtain rfl : w.length = k := Nat.le_antisymm hge hle
    have hlt := decimal_lt hw
    exact ⟨hw, rfl, Nat.zero_le _, by omega⟩
  · rintro ⟨hw, rfl, _⟩
    exact ⟨hw, Nat.le_refl _, Nat.le_refl _⟩

theorem cons_mem_chars_numerals {p : Nat → Prop} {k lo hi c : Nat} {u : List Nat} :
    c :: u ∈ chars p * numerals k lo hi ↔
      (Digits u ∧ u.length = k) ∧ p c ∧ lo ≤ Parser.decimal u ∧ Parser.decimal u ≤ hi := by
  rw [cons_mem_chars_mul, mem_numerals]
  constructor
  · rintro ⟨hc, hu, hlen, hvalue⟩
    exact ⟨⟨hu, hlen⟩, hc, hvalue⟩
  · rintro ⟨⟨hu, hlen⟩, hc, hvalue⟩
    exact ⟨hc, hu, hlen, hvalue⟩

theorem groupText_zero (t : Text) : groupText 0 t 0 = byte '(' :: (t ++ [byte ')']) := by
  simp [groupText]

/-- Digits that differ at their first place. -/
theorem isItem_splitText {fs ts : Text} (hf : isDigitChar f = true) (ht : isDigitChar t = true)
    (hft : f < t) (hfs : Digits fs) (hts : Digits ts) (hlen : ts.length = fs.length)
    (hpos : 0 < fs.length) (hfits : fs.length < 2 ^ 31 - 1)
    (hfrom : IsSequence M uniformFrom
      (numerals fs.length (Parser.decimal fs) (10 ^ fs.length - 1)))
    (hto : IsSequence M uniformTo (numerals fs.length 0 (Parser.decimal ts))) :
    IsItem M (splitText f t fs ts uniformFrom uniformTo)
      (numerals (fs.length + 1) (Parser.decimal (f :: fs)) (Parser.decimal (t :: ts))) := by
  have hf' := isDigitChar_iff.1 hf
  have ht' := isDigitChar_iff.1 ht
  have hrest := (isItem_moreDigits (M := M) (Nat.le_refl fs.length) hpos hfits).sequence
  rw [digitStrings_eq] at hrest
  have hfirst := IsSequence.cons (isItem_digitRange (M := M) hf hf (Nat.le_refl f))
    (hfrom.alternates.group 0 0).sequence
  have hlast := IsSequence.cons (isItem_digitRange ht ht (Nat.le_refl t)) hto
  have hrange {a b : Nat} (hab : a ≤ b) (ha : 48 ≤ a) (hb : b ≤ 57) := IsSequence.cons
    (isItem_digitRange (M := M) (isDigitChar_iff.2 ⟨ha, hab.trans hb⟩)
      (isDigitChar_iff.2 ⟨ha.trans hab, hb⟩) hab) hrest
  have hnil {p : Nat → Prop} {l : Language Nat} : ([] : List Nat) ∉ chars p * l :=
    nil_notMem_chars_mul
  have hmax (u : Text) (hu : Digits u ∧ u.length = fs.length) :
      Parser.decimal u < 10 ^ fs.length := hu.2 ▸ decimal_lt hu.1
  -- a group is the right one if it has the right words with a first digit
  have hclose {text : Text} {l : Language Nat} (h : IsAlternates M text l)
      (htext : splitText f t fs ts uniformFrom uniformTo = groupText 0 text 0) (hl : [] ∉ l)
      (hcons : ∀ c u, c :: u ∈ l ↔ (Digits u ∧ u.length = fs.length) ∧
        (f < c ∨ f = c ∧ Parser.decimal fs ≤ Parser.decimal u) ∧
          (c < t ∨ c = t ∧ Parser.decimal u ≤ Parser.decimal ts)) :
      IsItem M (splitText f t fs ts uniformFrom uniformTo)
        (numerals (fs.length + 1) (Parser.decimal (f :: fs)) (Parser.decimal (t :: ts))) := by
    have hsame :
        numerals (fs.length + 1) (Parser.decimal (f :: fs)) (Parser.decimal (t :: ts)) = l := by
      ext w
      cases w with
      | nil => exact iff_of_false nil_notMem_numerals hl
      | cons c u => rw [cons_mem_numerals_decimal hf ht hfs hts hlen, hcons]
    rw [htext, hsame]
    exact h.group 0 0
  by_cases hzeros : fs = List.replicate fs.length (byte '0')
  · have hvalue : Parser.decimal fs = 0 := by
      rw [hzeros]
      exact decimal_zeros _
    refine hclose (IsAlternates.bar (hrange (a := f) (b := t - 1) (by omega) hf'.1 (by omega))
      hlast.alternates) ?_ ?_ fun c u => ?_
    · rw [groupText_zero, splitText, if_pos hzeros, if_neg (fun h => h.1 hzeros)]
      rfl
    · rw [Language.mem_add]
      exact not_or_intro hnil hnil
    · rw [Language.mem_add, cons_mem_chars_numerals, cons_mem_chars_numerals, ← and_or_left, hvalue]
      refine and_congr_right fun hu => ?_
      have hlt := hmax u hu
      omega
  · by_cases hgap : f < t - 1
    · by_cases hnines : ts = List.replicate fs.length (byte '9')
      · have hvalue : Parser.decimal ts + 1 = 10 ^ fs.length := by
          rw [hnines]
          exact decimal_nines _
        refine hclose (IsAlternates.bar hfirst (hrange (a := f + 1) (b := t) (by omega) (by omega)
          ht'.2).alternates) ?_ ?_ fun c u => ?_
        · rw [groupText_zero, groupText_zero, splitText, if_neg hzeros, if_pos hgap, if_pos hnines,
            if_pos ⟨hzeros, hgap, hnines⟩]
          simp [digitRange, sp]
        · rw [Language.mem_add]
          exact not_or_intro hnil hnil
        · rw [Language.mem_add, cons_mem_chars_numerals, cons_mem_chars_numerals, ← and_or_left]
          refine and_congr_right fun hu => ?_
          have hlt := hmax u hu
          omega
      · refine hclose (IsAlternates.bar hfirst (IsAlternates.bar (hrange (a := f + 1) (b := t - 1)
          (by omega) (by omega) (by omega)) hlast.alternates)) ?_ ?_ fun c u => ?_
        · rw [groupText_zero, groupText_zero, splitText, if_neg hzeros, if_pos hgap, if_neg hnines,
            if_neg (fun h => hnines h.2.2)]
          simp [digitRange, sp]
        · rw [Language.mem_add, Language.mem_add]
          exact not_or_intro hnil (not_or_intro hnil hnil)
        · rw [Language.mem_add, Language.mem_add, cons_mem_chars_numerals, cons_mem_chars_numerals,
            cons_mem_chars_numerals, ← and_or_left, ← and_or_left]
          refine and_congr_right fun hu => ?_
          have hlt := hmax u hu
          omega
    · refine hclose (IsAlternates.bar hfirst hlast.alternates) ?_ ?_ fun c u => ?_
      · rw [groupText_zero, groupText_zero, splitText, if_neg hzeros, if_neg hgap,
          if_neg (fun h => hgap h.2.1)]
        simp [digitRange, sp]
      · rw [Language.mem_add]
        exact not_or_intro hnil hnil
      · rw [Language.mem_add, cons_mem_chars_numerals, cons_mem_chars_numerals, ← and_or_left]
        refine and_congr_right fun hu => ?_
        have hlt := hmax u hu
        omega

/-- Digits that numbers share. -/
theorem single_mul_numerals (hp : Digits p) (hlo : lo < 10 ^ k) (hhi : hi < 10 ^ k) :
    ({p} : Language Nat) * numerals k lo hi =
      numerals (p.length + k) (Parser.decimal p * 10 ^ k + lo)
        (Parser.decimal p * 10 ^ k + hi) := by
  ext w
  rw [Language.mem_mul, mem_numerals]
  constructor
  · rintro ⟨_, rfl, u, ⟨hu, hlen, hlow, hhigh⟩, rfl⟩
    rw [decimal_append, List.length_append, hlen]
    exact ⟨hp.append hu, rfl, by omega, by omega⟩
  · rintro ⟨hw, hlen, hlow, hhigh⟩
    obtain ⟨q, u, rfl, hq⟩ : ∃ q u, w = q ++ u ∧ q.length = p.length :=
      ⟨w.take p.length, w.drop p.length, (List.take_append_drop _ _).symm,
        List.length_take_of_le (by omega)⟩
    rw [List.length_append, hq] at hlen
    have hulen : u.length = k := by omega
    have hqdigits : Digits q := fun c hc => hw c (List.mem_append_left _ hc)
    have hudigits : Digits u := fun c hc => hw c (List.mem_append_right _ hc)
    have hu := decimal_lt hudigits
    rw [hulen] at hu
    rw [decimal_append, hulen] at hlow hhigh
    rw [leading_le_iff hlo hu] at hlow
    rw [leading_le_iff hu hhi] at hhigh
    obtain rfl : q = p := decimal_injective hqdigits hp hq (by omega)
    exact ⟨q, rfl, u, ⟨hudigits, hulen, by omega, by omega⟩, rfl⟩

theorem numerals_self (h : Digits ds) :
    numerals ds.length (Parser.decimal ds) (Parser.decimal ds) = {ds} := by
  ext w
  rw [mem_numerals, mem_single]
  constructor
  · rintro ⟨hw, hlen, hlow, hhigh⟩
    exact decimal_injective hw h hlen (Nat.le_antisymm hhigh hlow)
  · rintro rfl
    exact ⟨h, rfl, Nat.le_refl _, Nat.le_refl _⟩

theorem literalText_digits (h : Digits ds) : LiteralText ds ds := by
  induction ds with
  | nil => exact .nil
  | cons c ds ih =>
    obtain ⟨hc, hds⟩ := digits_cons.1 h
    rw [isDigitChar_iff] at hc
    refine .cons (t := [c]) (readAs_ascii (by omega) (by omega) ?_ ?_) (ih hds)
    · change c ≠ 34
      omega
    · change c ≠ 92
      omega

/-- Numbers of one length share some digits, and they are the same or differ behind these. -/
theorem sharedDigits_spec (hlen : ys.length = xs.length) :
    xs = ys ∧ sharedDigits xs ys = xs.length ∨
      ∃ p f fs t ts, xs = p ++ f :: fs ∧ ys = p ++ t :: ts ∧ f ≠ t ∧ ts.length = fs.length ∧
        sharedDigits xs ys = p.length := by
  induction xs generalizing ys with
  | nil => exact .inl ⟨(List.length_eq_zero_iff.1 hlen).symm, rfl⟩
  | cons x xs ih =>
    cases ys with
    | nil => cases hlen
    | cons y ys =>
      have hlen' := Nat.succ.inj hlen
      rw [sharedDigits]
      by_cases hxy : x = y
      · subst hxy
        rw [if_pos rfl]
        rcases ih hlen' with ⟨rfl, hshared⟩ | ⟨p, f, fs, t, ts, rfl, rfl, hne, hsub, hshared⟩
        · exact .inl ⟨rfl, congrArg Nat.succ hshared⟩
        · exact .inr ⟨x :: p, f, fs, t, ts, rfl, rfl, hne, hsub, congrArg Nat.succ hshared⟩
      · rw [if_neg hxy]
        exact .inr ⟨[], x, xs, y, ys, rfl, rfl, hxy, hlen', rfl⟩

/-- `uniform_range` is the range between two numbers of one length. -/
theorem isSequence_uniformRange (depth : Nat) {fromText toText : Text} (hfrom : Digits fromText)
    (hto : Digits toText) (hlen : toText.length = fromText.length) (hpos : 0 < fromText.length)
    (hdepth : fromText.length ≤ depth) (hfits : fromText.length < 2 ^ 31 - 1)
    (hle : Parser.decimal fromText ≤ Parser.decimal toText) :
    IsSequence M (uniformRange depth fromText toText)
      (numerals fromText.length (Parser.decimal fromText) (Parser.decimal toText)) := by
  induction depth generalizing fromText toText with
  | zero => omega
  | succ depth ih =>
    rcases sharedDigits_spec hlen with
      ⟨rfl, hshared⟩ | ⟨p, f, fs, t, ts, rfl, rfl, hne, hsub, hshared⟩
    · rw [uniformRange, hshared, numerals_self hfrom]
      dsimp only
      rw [List.drop_length, List.take_length, if_pos hpos]
      exact (isItem_literal (literalText_digits hfrom) (List.ne_nil_of_length_pos hpos)).sequence
    · have hp : Digits p := fun c hc => hfrom c (List.mem_append_left _ hc)
      obtain ⟨hf, hfs⟩ := digits_cons.1 fun c hc => hfrom c (List.mem_append_right p hc)
      obtain ⟨ht, hts⟩ := digits_cons.1 fun c hc => hto c (List.mem_append_right p hc)
      have hfslt := decimal_lt hfs
      have htslt := decimal_lt hts
      rw [hsub] at htslt
      have hft : f < t := by
        rw [decimal_append, decimal_append, List.length_cons, List.length_cons, hsub] at hle
        have hle' : Parser.decimal (f :: fs) ≤ Parser.decimal (t :: ts) := by omega
        rw [decimal_cons, decimal_cons, hsub, leading_le_iff hfslt htslt] at hle'
        rw [isDigitChar_iff] at hf ht
        omega
      rw [List.length_append, List.length_cons] at hdepth hfits
      -- what is written behind the digits that are shared
      obtain ⟨text, htext, hitem⟩ : ∃ text, uniformRange (depth + 1) (p ++ f :: fs) (p ++ t :: ts) =
          (if 0 < p.length then quote :: (p ++ [quote]) ++ sp else []) ++ text ∧
            IsItem M text (numerals (fs.length + 1) (Parser.decimal (f :: fs))
              (Parser.decimal (t :: ts))) := by
        rw [uniformRange, hshared]
        dsimp only
        rw [List.drop_left, List.drop_left, List.take_left]
        dsimp only
        by_cases hsubpos : 0 < fs.length
        · refine ⟨splitText f t fs ts
            (uniformRange depth fs (List.replicate fs.length (byte '9')))
            (uniformRange depth (List.replicate fs.length (byte '0')) ts), ?_,
            isItem_splitText hf ht hft hfs hts hsub hsubpos (by omega) ?_ ?_⟩
          · rw [if_pos hsubpos]
            split <;> simp
          · have hnines := decimal_nines fs.length
            have hle' : Parser.decimal fs ≤
                Parser.decimal (List.replicate fs.length (byte '9')) := by
              change _ ≤ Parser.decimal (List.replicate fs.length 57)
              omega
            have hrec := ih hfs (digits_replicate _ rfl) List.length_replicate hsubpos (by omega)
              (by omega) hle'
            have hvalue : Parser.decimal (List.replicate fs.length (byte '9')) =
                10 ^ fs.length - 1 := by
              change Parser.decimal (List.replicate fs.length 57) = _
              omega
            rwa [hvalue] at hrec
          · have hvalue : Parser.decimal (List.replicate fs.length (byte '0')) = 0 :=
              decimal_zeros _
            have hle' : Parser.decimal (List.replicate fs.length (byte '0')) ≤
                Parser.decimal ts := hvalue ▸ Nat.zero_le _
            have hrec := ih (digits_replicate _ rfl) hts (by rw [List.length_replicate, hsub])
              (by rwa [List.length_replicate]) (by rw [List.length_replicate]; omega)
              (by rw [List.length_replicate]; omega) hle'
            rwa [hvalue, List.length_replicate] at hrec
        · obtain rfl : fs = [] := List.length_eq_zero_iff.1 (by omega)
          obtain rfl : ts = [] := List.length_eq_zero_iff.1 hsub
          refine ⟨digitRange f t, ?_, ?_⟩
          · rw [if_neg hsubpos, digitRange, if_neg hne]
            split <;> simp
          · have hsame : numerals (([] : Text).length + 1) (Parser.decimal [f])
                (Parser.decimal [t]) = chars fun c => f ≤ c ∧ c ≤ t := by
              rw [← mul_one (chars fun c => f ≤ c ∧ c ≤ t)]
              ext w
              cases w with
              | nil => exact iff_of_false nil_notMem_numerals nil_notMem_chars_mul
              | cons c u =>
                rw [cons_mem_numerals_decimal hf ht hfs hts rfl, cons_mem_chars_mul,
                  Language.mem_one]
                constructor
                · rintro ⟨⟨_, hu⟩, hlow, hhigh⟩
                  exact ⟨by omega, List.length_eq_zero_iff.1 hu⟩
                · rintro ⟨hc, rfl⟩
                  refine ⟨⟨hfs, rfl⟩, ?_, ?_⟩
                  · rcases Nat.lt_or_eq_of_le hc.1 with h | h
                    · exact .inl h
                    · exact .inr ⟨h, Nat.le_refl _⟩
                  · rcases Nat.lt_or_eq_of_le hc.2 with h | h
                    · exact .inl h
                    · exact .inr ⟨h, Nat.le_refl _⟩
            rw [hsame]
            exact isItem_digitRange hf ht hft.le
      have hlt (c : Nat) (ds : Text) (hc : isDigitChar c = true) (hds : Digits ds)
          (hdslen : ds.length = fs.length) : Parser.decimal (c :: ds) < 10 ^ (fs.length + 1) := by
        have hlt := decimal_lt (digits_cons.2 ⟨hc, hds⟩)
        rwa [List.length_cons, hdslen] at hlt
      rw [htext, decimal_append, decimal_append, List.length_append, List.length_cons,
        List.length_cons, hsub,
        ← single_mul_numerals hp (hlt f fs hf hfs rfl) (hlt t ts ht hts hsub)]
      by_cases hppos : 0 < p.length
      · rw [if_pos hppos, List.append_assoc]
        exact .cons (isItem_literal (literalText_digits hp) (List.ne_nil_of_length_pos hppos))
          hitem.sequence
      · obtain rfl : p = [] := List.length_eq_zero_iff.1 (by omega)
        rw [if_neg hppos, List.nil_append]
        have hone : ({[]} : Language Nat) = 1 := rfl
        rw [hone, one_mul]
        exact hitem.sequence

/-! ### Ranges of any length -/

/-- Digits without leading zeros. -/
structure IsNatural (ds : Text) : Prop where
  digits : Digits ds
  nonempty : ds ≠ []
  lead : peek ds = byte '0' → ds.length = 1

/-- The digits of the numbers between two bounds. -/
def naturals (lo hi : Nat) : Language Nat :=
  {w | IsNatural w ∧ lo ≤ Parser.decimal w ∧ Parser.decimal w ≤ hi}

theorem mem_naturals {lo hi : Nat} {w : List Nat} : w ∈ naturals lo hi ↔
    IsNatural w ∧ lo ≤ Parser.decimal w ∧ Parser.decimal w ≤ hi := Iff.rfl

theorem isNatural_of_le (h : Digits ds) (hpos : 0 < ds.length)
    (hlead : ds.length = 1 ∨ 10 ^ (ds.length - 1) ≤ Parser.decimal ds) : IsNatural ds := by
  refine ⟨h, List.ne_nil_of_length_pos hpos, fun hpeek => ?_⟩
  rcases hlead with hone | hle
  · exact hone
  · cases ds with
    | nil => cases hpos
    | cons c ds =>
      obtain rfl : c = 48 := hpeek
      have hlt := decimal_lt (digits_cons.1 h).2
      rw [decimal_cons, Nat.sub_self, Nat.zero_mul, Nat.zero_add, List.length_cons,
        Nat.add_sub_cancel] at hle
      omega

theorem IsNatural.le_decimal (h : IsNatural ds) (hlen : ds.length ≠ 1) :
    10 ^ (ds.length - 1) ≤ Parser.decimal ds := by
  cases ds with
  | nil => exact absurd rfl h.nonempty
  | cons c ds =>
    have hc : c ≠ 48 := fun hzero => hlen (h.lead hzero)
    have hdigit := isDigitChar_iff.1 (digits_cons.1 h.digits).1
    have hle : 1 * 10 ^ ds.length ≤ (c - 48) * 10 ^ ds.length :=
      Nat.mul_le_mul_right _ (by omega)
    rw [decimal_cons, List.length_cons, Nat.add_sub_cancel]
    omega

/-- A longer natural number is greater. -/
theorem IsNatural.length_le (h : IsNatural ds) (hlt : Parser.decimal ds < 10 ^ k) (hk : 0 < k) :
    ds.length ≤ k := by
  by_contra hlong
  have hle := h.le_decimal (by omega)
  have hpow : 10 ^ k ≤ 10 ^ (ds.length - 1) := Nat.pow_le_pow_right (by decide) (by omega)
  omega

theorem naturals_eq_numerals (hpos : 0 < k) (hlo : k = 1 ∨ 10 ^ (k - 1) ≤ lo) (hhi : hi < 10 ^ k) :
    naturals lo hi = numerals k lo hi := by
  ext w
  rw [mem_naturals, mem_numerals]
  constructor
  · rintro ⟨hw, hlow, hhigh⟩
    have hle := hw.length_le (by omega) hpos
    refine ⟨hw.digits, ?_, hlow, hhigh⟩
    rcases hlo with rfl | hlo
    · have hne := List.length_pos_iff.2 hw.nonempty
      omega
    · by_contra hshort
      have hlt := decimal_lt hw.digits
      have hpow : 10 ^ w.length ≤ 10 ^ (k - 1) := Nat.pow_le_pow_right (by decide) (by omega)
      omega
  · rintro ⟨hw, rfl, hlow, hhigh⟩
    exact ⟨isNatural_of_le hw hpos (hlo.imp_right fun h => h.trans hlow), hlow, hhigh⟩

/-- The numbers of one length, and the longer ones. -/
theorem numerals_add_naturals (hpos : 0 < k) (hlo : k = 1 ∨ 10 ^ (k - 1) ≤ lo) (hlt : lo < 10 ^ k)
    (hhi : 10 ^ k ≤ hi) : numerals k lo (10 ^ k - 1) + naturals (10 ^ k) hi = naturals lo hi := by
  have hone : 10 ^ k - 1 < 10 ^ k := by omega
  ext w
  rw [Language.mem_add, ← naturals_eq_numerals hpos hlo hone, mem_naturals, mem_naturals,
    mem_naturals, ← and_or_left]
  exact and_congr_right fun _ => by omega

/-- The ranges of the lengths from the first on. -/
theorem isAlternates_uniformRanges (n : Nat) {minS maxS : Text} (hmin : Digits minS)
    (hmax : IsNatural maxS) (hpos : 0 < minS.length) (hlen : maxS.length = minS.length + n)
    (hlead : minS.length = 1 ∨ 10 ^ (minS.length - 1) ≤ Parser.decimal minS)
    (hle : Parser.decimal minS ≤ Parser.decimal maxS) (hfits : maxS.length < 2 ^ 31 - 1) :
    IsAlternates M (uniformRanges n minS.length minS maxS)
      (naturals (Parser.decimal minS) (Parser.decimal maxS)) := by
  induction n generalizing minS with
  | zero =>
    have hlt := decimal_lt hmax.digits
    rw [hlen] at hlt
    rw [uniformRanges, naturals_eq_numerals hpos hlead hlt]
    exact (isSequence_uniformRange _ hmin hmax.digits hlen hpos (Nat.le_refl _) (by omega)
      hle).alternates
  | succ n ih =>
    have hlt := decimal_lt hmin
    have hnines := decimal_nines minS.length
    have hmaxle := hmax.le_decimal (by omega)
    have hpow : 10 ^ minS.length ≤ 10 ^ (maxS.length - 1) :=
      Nat.pow_le_pow_right (by decide) (by omega)
    have hnext : Parser.decimal (byte '1' :: List.replicate minS.length (byte '0')) =
        10 ^ minS.length := by
      have hzeros := decimal_zeros minS.length
      change Parser.decimal (49 :: List.replicate minS.length 48) = _
      rw [decimal_cons, hzeros, List.length_replicate]
      omega
    have hnextlen : (byte '1' :: List.replicate minS.length (byte '0')).length =
        minS.length + 1 := by
      rw [List.length_cons, List.length_replicate]
    have hlast : Parser.decimal (List.replicate minS.length (byte '9')) = 10 ^ minS.length - 1 := by
      change Parser.decimal (List.replicate minS.length 57) = _
      omega
    have hfirst := isSequence_uniformRange (M := M) minS.length hmin
      (digits_replicate minS.length (c := byte '9') rfl) List.length_replicate hpos (Nat.le_refl _)
      (by omega) (by omega)
    have hnextdigits : Digits (byte '1' :: List.replicate minS.length (byte '0')) :=
      digits_cons.2 ⟨rfl, digits_replicate _ rfl⟩
    have hrest := ih hnextdigits (by omega) (by omega)
      (.inr (by rw [hnext, hnextlen, Nat.add_sub_cancel])) (by omega)
    rw [hlast] at hfirst
    rw [hnext, hnextlen] at hrest
    rw [uniformRanges, ← numerals_add_naturals hpos hlead hlt (hpow.trans hmaxle)]
    exact .bar hfirst hrest

theorem isNatural_decimalText (n : Nat) : IsNatural (decimalText n) := by
  refine isNatural_of_le (digits_decimalText n) (length_decimalText_pos n) ?_
  have hpos := length_decimalText_pos n
  rw [decimal_decimalText]
  by_cases hone : (decimalText n).length = 1
  · exact .inl hone
  · exact .inr (pow_le_of_length (by omega) (by omega))

theorem isAlternates_betweenBounds (hle : lo ≤ hi) (hfits : (decimalText hi).length < 2 ^ 31 - 1) :
    IsAlternates M (betweenBounds lo hi) (naturals lo hi) := by
  have hmin := isNatural_decimalText lo
  have hlt := decimal_lt (digits_decimalText hi)
  rw [decimal_decimalText] at hlt
  have hlen : (decimalText lo).length ≤ (decimalText hi).length :=
    (length_decimalText_le_iff (length_decimalText_pos hi)).2 (by omega)
  have hranges := isAlternates_uniformRanges (M := M)
    ((decimalText hi).length - (decimalText lo).length) hmin.digits (isNatural_decimalText hi)
    (length_decimalText_pos lo) (by omega) ?_ (by rwa [decimal_decimalText, decimal_decimalText])
    hfits
  · rwa [decimal_decimalText, decimal_decimalText] at hranges
  · by_cases hone : (decimalText lo).length = 1
    · exact .inl hone
    · exact .inr (hmin.le_decimal hone)

end ActQuant.Grammar
