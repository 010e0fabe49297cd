import ActQuant.Grammar.IntegerBounds

namespace ActQuant.Grammar
open Lib ActQuant.Grammar.Parser

/-! Which integers the fragment for two bounds accepts. -/

/-! ### Two bounds -/

/-- A text that writes an integer, without leading zeros and in at most 16 digits. -/
inductive Writes : Text → Int → Prop
  | natural (h : IsNatural ds) (hlen : ds.length ≤ 16) : Writes ds (Parser.decimal ds)
  | negative (h : IsNatural ds) (hlen : ds.length ≤ 16) :
      Writes (byte '-' :: ds) (-(Parser.decimal ds : Int))

/-- Digits with or without a minus in front. -/
inductive SignedDigits : Text → Prop
  | digits (h : Digits ds) : SignedDigits ds
  | minus (h : Digits ds) : SignedDigits (byte '-' :: ds)

def Within (minimum maximum : Option Int) (v : Int) : Prop :=
  (∀ a ∈ minimum, a ≤ v) ∧ ∀ b ∈ maximum, v ≤ b

/-- The fragment, as the body of a rule, accepts the integers between the bounds, where "-0" is
left open. -/
def RangeRight (minimum maximum : Option Int) : Prop :=
  ∃ t, integerFragment minimum maximum = some t ∧
    ∀ w, SignedDigits w → w ≠ [byte '-', byte '0'] →
      (w ∈ grammarLanguage (formatGrammar [(rootName, t)]) rootName ↔
        ∃ v, Writes w v ∧ Within minimum maximum v)

/-- The numbers of at most 16 digits with a value that is allowed. -/
def accepted (p : Int → Prop) : Language Nat :=
  {w | IsNatural w ∧ w.length ≤ 16 ∧ p (Parser.decimal w)}

theorem mem_accepted {p : Int → Prop} {w : List Nat} :
    w ∈ accepted p ↔ IsNatural w ∧ w.length ≤ 16 ∧ p (Parser.decimal w) := Iff.rfl

theorem not_digits_minus (ds : Text) : ¬ Digits (byte '-' :: ds) := fun h =>
  absurd (h _ List.mem_cons_self) (by decide)

theorem writes_digits_iff {ds : Text} (h : Digits ds) {p : Int → Prop} :
    (∃ v, Writes ds v ∧ p v) ↔ ds ∈ accepted p := by
  constructor
  · rintro ⟨v, hw, hv⟩
    cases hw with
    | natural hnat hlen => exact ⟨hnat, hlen, hv⟩
    | negative hnat hlen => exact absurd h (not_digits_minus _)
  · exact fun hw => ⟨_, .natural hw.1 hw.2.1, hw.2.2⟩

theorem writes_minus_iff {ds : Text} {p : Int → Prop} :
    (∃ v, Writes (byte '-' :: ds) v ∧ p v) ↔ ds ∈ accepted fun v => p (-v) := by
  constructor
  · rintro ⟨v, hw, hv⟩
    cases hw with
    | natural hnat hlen => exact absurd hnat.digits (not_digits_minus _)
    | negative hnat hlen => exact ⟨hnat, hlen, hv⟩
  · exact fun hw => ⟨_, .negative hw.1 hw.2.1, hw.2.2⟩

theorem minus_mem_mul {l : Language Nat} {u : List Nat} :
    byte '-' :: u ∈ ({[byte '-']} : Language Nat) * l ↔ u ∈ l := by
  rw [Language.mem_mul]
  constructor
  · rintro ⟨_, rfl, v, hv, heq⟩
    cases heq
    exact hv
  · exact fun h => ⟨_, rfl, u, h, rfl⟩

theorem digits_notMem_minus_mul {l : Language Nat} {ds : Text} (h : Digits ds) :
    ds ∉ ({[byte '-']} : Language Nat) * l := by
  rw [Language.mem_mul]
  rintro ⟨_, rfl, v, hv, rfl⟩
  exact not_digits_minus v h

theorem isName_root : IsName rootName := ⟨by decide, by decide⟩

/-- A rule without references, alone in a grammar. -/
theorem grammarLanguage_root (h : IsAlternates (fun _ => none) t l) :
    grammarLanguage (formatGrammar [(rootName, t)]) rootName = l := by
  have htable : Table [(rootName, t)] := by
    constructor
    case nodup => exact List.nodup_singleton _
    case isName => exact fun rule hrule => List.mem_singleton.1 hrule ▸ isName_root
    case isLine =>
      intro rule hrule
      rw [List.mem_singleton.1 hrule]
      exact h.line.mono fun name hname => nomatch hname
  exact htable.language (List.mem_singleton.2 rfl) (fun _ _ hnone => by cases hnone) h

/-- The two halves of a fragment. -/
theorem rangeRight_iff_parts (ht : integerFragment minimum maximum = some t)
    (h : IsAlternates (fun _ => none) t (({[byte '-']} : Language Nat) * lneg + lpos))
    (hlp : ∀ ds, byte '-' :: ds ∉ lpos) : RangeRight minimum maximum ↔
      (∀ ds, Digits ds → (ds ∈ lpos ↔ ds ∈ accepted (Within minimum maximum))) ∧
        SameDigits lneg (accepted fun v => Within minimum maximum (-v)) := by
  have hroot := grammarLanguage_root h
  constructor
  · rintro ⟨t', ht', hright⟩
    obtain rfl : t = t' := Option.some.inj (ht.symm.trans ht')
    rw [hroot] at hright
    constructor
    · intro ds hds
      rw [← writes_digits_iff hds,
        ← hright ds (.digits hds) fun heq => not_digits_minus _ (heq ▸ hds),
        Language.mem_add]
      exact (or_iff_right (digits_notMem_minus_mul hds)).symm
    · intro ds hds hzero
      rw [← writes_minus_iff, ← hright _ (.minus hds) fun heq => hzero (List.cons.inj heq).2,
        Language.mem_add, minus_mem_mul]
      exact (or_iff_left (hlp ds)).symm
  · rintro ⟨hnatural, hnegative⟩
    refine ⟨t, ht, fun w hw hne => ?_⟩
    rw [hroot, Language.mem_add]
    cases hw with
    | digits hds =>
      rw [writes_digits_iff hds, ← hnatural w hds]
      exact or_iff_right (digits_notMem_minus_mul hds)
    | minus hds =>
      rw [writes_minus_iff, minus_mem_mul, ← hnegative _ hds fun heq => hne (heq ▸ rfl)]
      exact or_iff_left (hlp _)

/-! ### Which branch is taken -/

theorem buildMinMaxInt_between (fuel dl : Nat) (top : Bool) {a b : Nat} (hb : (b : Int) < intMax) :
    buildMinMaxInt (fuel + 1) a b dl top = some (betweenBounds a b) := by
  have hmin : (a : Int) ≠ intMin := by
    rw [intMin]
    omega
  rw [buildMinMaxInt]
  dsimp only
  rw [if_pos ⟨hmin, hb.ne⟩, if_neg (by omega), if_neg (by omega), Int.toNat_natCast,
    Int.toNat_natCast]

theorem buildMinMaxInt_negatives (fuel dl : Nat) (top : Bool) {a b : Int} (ha : intMin < a)
    (hab : a ≤ b) (hb : b < 0) :
    buildMinMaxInt (fuel + 1) a b dl top =
      (buildMinMaxInt fuel (-b) (-a) dl true).map minusText := by
  have hmax : b ≠ intMax := by
    rw [intMax]
    omega
  rw [buildMinMaxInt]
  dsimp only
  rw [if_pos ⟨ha.ne', hmax⟩, if_pos ⟨by omega, hb⟩]

theorem buildMinMaxInt_mixed (fuel dl : Nat) (top : Bool) {a : Int} {b : Nat} (ha : intMin < a)
    (ha' : a < 0) (hb : (b : Int) < intMax) : buildMinMaxInt (fuel + 1) a b dl top =
      (buildMinMaxInt fuel 0 (-a) dl true).map fun t =>
        minusText t ++ (barText ++ betweenBounds 0 b) := by
  rw [buildMinMaxInt]
  dsimp only
  rw [if_pos ⟨ha.ne', hb.ne⟩, if_neg (by omega), if_pos ha', Int.toNat_natCast]

theorem buildMinMaxInt_minNegative (fuel dl : Nat) (top : Bool) {a : Int} (ha : intMin < a)
    (ha' : a < 0) :
    buildMinMaxInt (fuel + 1) a intMax dl top =
      (buildMinMaxInt fuel intMin (-a) dl false).map fun t =>
        minusText t ++ (barText ++ (digitRange (byte '0') (byte '0') ++ (barText ++
          (digitRange (byte '1') (byte '9') ++ (sp ++ moreDigits 0 (dl - 1)))))) := by
  rw [buildMinMaxInt]
  dsimp only
  rw [if_neg (fun h => h.2 rfl), if_pos ha.ne', if_pos ha']

theorem buildMinMaxInt_max (fuel dl : Nat) (top : Bool) {b : Nat} (hb : (b : Int) < intMax) :
    buildMinMaxInt (fuel + 1) intMin b dl top =
      (buildMinMaxInt fuel 0 b dl true).map fun t =>
        (if top then
          quote :: byte '-' :: quote :: (sp ++ (digitRange (byte '1') (byte '9') ++
            (sp ++ (moreDigits 0 (max (dl - 1) 1) ++ barText))))
        else []) ++ t := by
  rw [buildMinMaxInt]
  dsimp only
  rw [if_neg (fun h => h.1 rfl), if_neg (fun h => h rfl), if_pos hb.ne, if_pos (by omega)]

theorem buildMinMaxInt_maxNegative (fuel dl : Nat) (top : Bool) {b : Int} (hb : b < 0) :
    buildMinMaxInt (fuel + 1) intMin b dl top =
      (buildMinMaxInt fuel (-b) intMax dl false).map minusText := by
  have hmax : b ≠ intMax := by
    rw [intMax]
    omega
  rw [buildMinMaxInt]
  dsimp only
  rw [if_neg (fun h => h.1 rfl), if_neg (fun h => h rfl), if_pos hmax, if_neg (by omega)]

theorem buildMinMaxInt_none (fuel dl : Nat) (top : Bool) :
    buildMinMaxInt (fuel + 1) intMin intMax dl top = none := by
  rw [buildMinMaxInt]
  dsimp only
  rw [if_neg (fun h => h.1 rfl), if_neg (fun h => h rfl), if_neg (fun h => h rfl)]

theorem isItem_minus : IsItem M [quote, byte '-', quote] {[byte '-']} :=
  isItem_literal (.cons (t := [byte '-'])
    (readAs_ascii (by decide) (by decide) (by decide) (by decide)) .nil) (List.cons_ne_nil _ _)

theorem isSequence_minusText (h : IsAlternates M t l) :
    IsSequence M (minusText t) (({[byte '-']} : Language Nat) * l) := by
  have hgroup := (h.group 0 0).sequence
  rw [groupText_zero] at hgroup
  exact .cons isItem_minus hgroup

/-- A number of 32 bits has few digits. -/
theorem length_decimalText_int {v : Nat} (h : (v : Int) ≤ intMax) :
    (decimalText v).length ≤ 10 := by
  rw [length_decimalText_le_iff (by decide)]
  have hmax : intMax < 10 ^ 10 := by decide
  omega

theorem isAlternates_between {a b : Nat} (hab : a ≤ b) (hb : (b : Int) < intMax) :
    IsAlternates M (betweenBounds a b) (naturals a b) := by
  have hlen := length_decimalText_int hb.le
  exact isAlternates_betweenBounds hab (by omega)

/-! ### The words between two bounds -/

theorem mem_naturals_iff {a b : Nat} {ds : Text} (hb : (b : Int) < intMax) : ds ∈ naturals a b ↔
    ds ∈ accepted fun v => a ≤ v ∧ v ≤ b := by
  rw [mem_naturals, mem_accepted, Int.ofNat_le, Int.ofNat_le]
  refine and_congr_right fun hnat => ⟨fun h => ⟨?_, h⟩, fun h => h.2⟩
  have hmax : intMax < 10 ^ 16 := by decide
  exact hnat.length_le (by omega) (by decide)

theorem minus_notMem_naturals {a b : Nat} (ds : Text) : byte '-' :: ds ∉ naturals a b :=
  fun h => not_digits_minus ds h.1.digits

theorem mem_naturalsFrom_iff {a : Nat} {ds : Text} :
    ds ∈ naturalsFrom a 16 ↔ ds ∈ accepted fun v => a ≤ v := by
  rw [mem_naturalsFrom, mem_accepted, Int.ofNat_le]

theorem accepted_congr {p q : Int → Prop} (h : ∀ v, 0 ≤ v → (p v ↔ q v)) :
    accepted p = accepted q := by
  ext w
  rw [mem_accepted, mem_accepted, h _ (Int.natCast_nonneg _)]

theorem notMem_accepted {p : Int → Prop} (h : ∀ v, 0 ≤ v → ¬ p v) (w : List Nat) :
    w ∉ accepted p := fun hw => h _ (Int.natCast_nonneg _) hw.2.2

theorem IsNatural.eq_zero (h : IsNatural ds) (hzero : Parser.decimal ds = 0) :
    ds = [byte '0'] := by
  by_cases hlen : ds.length = 1
  · have hdigits : Digits [byte '0'] := digits_cons.2 ⟨rfl, digits_nil⟩
    exact decimal_injective h.digits hdigits hlen hzero
  · have hle := h.le_decimal hlen
    have hpos := Nat.pow_pos (n := ds.length - 1) (show 0 < 10 by decide)
    omega

theorem sameDigits_accepted {p q : Int → Prop} (h : ∀ v, 0 < v → (p v ↔ q v)) :
    SameDigits (accepted p) (accepted q) := by
  intro ds _ hne
  rw [mem_accepted, mem_accepted]
  refine and_congr_right fun hnat => and_congr_right fun _ => h _ ?_
  have hpos : Parser.decimal ds ≠ 0 := fun hzero => hne (hnat.eq_zero hzero)
  omega

theorem sameDigits_none {p : Int → Prop} (h : ∀ v, 0 < v → ¬ p v) : SameDigits 0 (accepted p) := by
  intro ds hds hne
  have hfalse : ds ∉ accepted fun _ => False := notMem_accepted (fun _ _ h => h) ds
  have hsame := sameDigits_accepted (q := fun _ => False) (fun v hv => iff_false_intro (h v hv)) ds
    hds hne
  rw [hsame]
  exact iff_of_false id hfalse

theorem isAlternates_halves (h : IsAlternates M t l) (h' : IsAlternates M t' l') :
    IsAlternates M (minusText t ++ (barText ++ t')) (({[byte '-']} : Language Nat) * l + l') :=
  .bar (isSequence_minusText h) h'

theorem isAlternates_negatives (h : IsAlternates M t l) :
    IsAlternates M (minusText t) (({[byte '-']} : Language Nat) * l + 0) := by
  rw [add_zero]
  exact (isSequence_minusText h).alternates

theorem isAlternates_naturals (h : IsAlternates M t l) :
    IsAlternates M t (({[byte '-']} : Language Nat) * 0 + l) := by
  rw [mul_zero, zero_add]
  exact h

theorem within_between {a b v : Int} : Within (some a) (some b) v ↔ a ≤ v ∧ v ≤ b := by
  simp [Within]

theorem within_min {a v : Int} : Within (some a) none v ↔ a ≤ v := by
  simp [Within]

theorem within_max {b v : Int} : Within none (some b) v ↔ v ≤ b := by
  simp [Within]

/-- Two bounds that are not negative. -/
theorem rangeRight_naturals {a b : Nat} (hab : a ≤ b) (hb : (b : Int) < intMax) :
    RangeRight (some a) (some b) := by
  have hfragment : integerFragment (some (a : Int)) (some (b : Int)) = some (betweenBounds a b) :=
    buildMinMaxInt_between 15 16 true hb
  refine (rangeRight_iff_parts hfragment (isAlternates_naturals (isAlternates_between hab hb))
    minus_notMem_naturals).2 ⟨?_, ?_⟩
  · intro ds _
    rw [mem_naturals_iff hb, accepted_congr fun v _ => within_between.symm]
  · exact sameDigits_none fun v hv h => by
      have hle := (within_between.1 h).1
      omega

/-- Sixteen digits behind a minus, where a bound is that of the type. -/
theorem nines_wrong {a : Nat} {p : Int → Prop} (ha : (a : Int) ≤ intMax)
    (hp : ∀ v, p v → v ≤ intMax) :
    ¬ SameDigits (minLanguage 15 a 16 true) (accepted p) := by
  have hlen := length_decimalText_int ha
  have hmax : intMax < 10 ^ 16 - 1 := by decide
  have hmem : List.replicate (15 + 1) 57 ∈ minLanguage 15 a 16 true := by
    refine nines_mem_minLanguage 15 ?_ (by decide) (by omega) (by omega)
    omega
  intro h
  have hwrong := (h _ (digits_replicate _ rfl) (by decide)).1 hmem
  have hle := hp _ hwrong.2.2
  have hvalue : Parser.decimal (List.replicate (15 + 1) 57) = 10 ^ 16 - 1 := rfl
  omega

/-- A negative bound below and another that is not negative. -/
theorem rangeRight_mixed_iff {m b : Nat} (hm : 0 < m) (hm' : (m : Int) ≤ intMax)
    (hb : (b : Int) < intMax) : RangeRight (some (-m)) (some b) ↔ (m : Int) ≠ intMax := by
  have hmin : intMin < -(m : Int) := by
    rw [intMax] at hm'
    rw [intMin]
    omega
  have hfragment : integerFragment (some (-m : Int)) (some (b : Int)) =
      (buildMinMaxInt 15 0 (- -(m : Int)) 16 true).map fun t =>
        minusText t ++ (barText ++ betweenBounds 0 b) :=
    buildMinMaxInt_mixed 15 16 true (a := -(m : Int)) hmin (by omega) hb
  rw [Int.neg_neg] at hfragment
  have hpositive : ∀ ds, Digits ds →
      (ds ∈ naturals 0 b ↔ ds ∈ accepted (Within (some (-m : Int)) (some (b : Int)))) := by
    intro ds _
    rw [mem_naturals_iff hb]
    refine Eq.to_iff (congrArg (ds ∈ ·) (accepted_congr fun v hv => ?_))
    rw [within_between]
    omega
  have hbetween := isAlternates_between (M := fun _ => none) (Nat.zero_le b) hb
  by_cases hlast : (m : Int) = intMax
  · obtain ⟨t, ht, hread⟩ := buildMinMaxInt_min (M := fun _ => none) 15 0 16 true (by decide)
      (by decide) (by decide)
    have ht' : buildMinMaxInt 15 0 (m : Int) 16 true = some t := by
      rw [hlast]
      exact ht
    rw [ht'] at hfragment
    rw [rangeRight_iff_parts hfragment (isAlternates_halves hread hbetween) minus_notMem_naturals]
    refine iff_of_false (fun h => nines_wrong (by decide) (fun v hv => ?_) h.2)
      (not_not_intro hlast)
    have hle := (within_between.1 hv).1
    omega
  · have hlt : (m : Int) < intMax := by omega
    have ht : buildMinMaxInt 15 0 (m : Int) 16 true = some (betweenBounds 0 m) :=
      buildMinMaxInt_between 14 16 true (a := 0) hlt
    rw [ht] at hfragment
    rw [rangeRight_iff_parts hfragment (isAlternates_halves
      (isAlternates_between (Nat.zero_le m) hlt) hbetween) minus_notMem_naturals]
    refine iff_of_true ⟨hpositive, fun ds hds hne => ?_⟩ hlast
    rw [mem_naturals_iff hlt]
    refine sameDigits_accepted (fun v hv => ?_) ds hds hne
    rw [within_between]
    omega

/-- Two negative bounds. -/
theorem rangeRight_negatives_iff {m n : Nat} (hn : 0 < n) (hnm : n ≤ m) (hm : (m : Int) ≤ intMax) :
    RangeRight (some (-m)) (some (-n)) ↔ (m : Int) ≠ intMax := by
  have hmin : intMin < -(m : Int) := by
    rw [intMax] at hm
    rw [intMin]
    omega
  have hfragment : integerFragment (some (-m : Int)) (some (-n : Int)) =
      (buildMinMaxInt 15 (- -(n : Int)) (- -(m : Int)) 16 true).map minusText :=
    buildMinMaxInt_negatives 15 16 true (a := -(m : Int)) (b := -(n : Int)) hmin (by omega)
      (by omega)
  rw [Int.neg_neg, Int.neg_neg] at hfragment
  have hpositive : ∀ ds, Digits ds →
      (ds ∈ (0 : Language Nat) ↔ ds ∈ accepted (Within (some (-m : Int)) (some (-n : Int)))) := by
    refine fun ds _ => iff_of_false id (notMem_accepted (fun v hv h => ?_) ds)
    have hle := (within_between.1 h).2
    omega
  have hempty (ds : Text) : byte '-' :: ds ∉ (0 : Language Nat) := id
  by_cases hlast : (m : Int) = intMax
  · have hle : (n : Int) ≤ intMax := by omega
    have hlen := length_decimalText_int hle
    obtain ⟨t, ht, hread⟩ := buildMinMaxInt_min (M := fun _ => none) 15 n 16 true (by omega)
      (by omega) (by decide)
    have ht' : buildMinMaxInt 15 n (m : Int) 16 true = some t := by
      rw [hlast]
      exact ht
    rw [ht'] at hfragment
    rw [rangeRight_iff_parts hfragment (isAlternates_negatives hread) hempty]
    refine iff_of_false (fun h => nines_wrong hle (fun v hv => ?_) h.2) (not_not_intro hlast)
    have hle := (within_between.1 hv).1
    omega
  · have hlt : (m : Int) < intMax := by omega
    rw [buildMinMaxInt_between 14 16 true hlt] at hfragment
    rw [rangeRight_iff_parts hfragment
      (isAlternates_negatives (isAlternates_between hnm hlt)) hempty]
    refine iff_of_true ⟨hpositive, fun ds hds hne => ?_⟩ hlast
    rw [mem_naturals_iff hlt]
    refine sameDigits_accepted (fun v hv => ?_) ds hds hne
    rw [within_between]
    omega

theorem minus_notMem_minLanguage (ds : Text) : byte '-' :: ds ∉ minLanguage fuel v dl top := by
  have hchars {a b : Nat} {l : Language Nat} (ha : 48 ≤ a) :
      byte '-' :: ds ∉ (chars fun c => a ≤ c ∧ c ≤ b) * l := by
    rw [cons_mem_chars_mul]
    rintro ⟨⟨hge, _⟩, _⟩
    change a ≤ 45 at hge
    omega
  have hite {p : Prop} [Decidable p] {a b : Nat} {l : Language Nat} (ha : p → 48 ≤ a) :
      byte '-' :: ds ∉ if p then (chars fun c => a ≤ c ∧ c ≤ b) * l else 0 := by
    split
    case isTrue hp => exact hchars (ha hp)
    case isFalse => exact id
  cases fuel with
  | zero => exact id
  | succ fuel =>
    have hstart : 48 ≤ if top = true then 49 else 48 := by split <;> decide
    rw [minLanguage]
    dsimp only
    split
    · split
      · exact not_or_intro (fun h => absurd (cons_mem_chars.1 h).1.1 (by decide))
          (hchars (by decide))
      · exact fun h => not_digits_minus ds h.1
    · split
      · exact not_or_intro (hite fun _ => hstart) (hchars (by omega))
      case isFalse hone =>
        obtain ⟨c, ds', htext, _, hc, _, _⟩ := decimalText_eq_cons (Nat.lt_of_not_le hone)
        have hpeek : peek (decimalText v) = c := by
          rw [htext]
          rfl
        rw [hpeek]
        exact not_or_intro (hite fun _ => hstart)
          (not_or_intro (hchars (by omega)) (hite fun _ => by omega))

/-- A bound below that is not negative. -/
theorem rangeRight_min_iff {a : Nat} (ha : (a : Int) < intMax) :
    RangeRight (some a) none ↔ Steep (decimalText a).tail := by
  have hlen := length_decimalText_int ha.le
  obtain ⟨t, ht, hread⟩ := buildMinMaxInt_min (M := fun _ => none) 16 a 16 true (by omega)
    (by omega) (by decide)
  have hfragment : integerFragment (some (a : Int)) none = some t := ht
  have haccepted : naturalsFrom a 16 = accepted (Within (some (a : Int)) none) := by
    ext ds
    rw [mem_naturalsFrom_iff, accepted_congr fun v _ => within_min.symm]
  have htop : SameDigits (minLanguage 16 a 16 true) (naturalsFrom a 16) ↔
      Steep (decimalText a).tail := minLanguage_top_iff (by omega) (by omega)
  rw [rangeRight_iff_parts hfragment (isAlternates_naturals hread) minus_notMem_minLanguage,
    ← htop, haccepted]
  constructor
  · exact fun h ds hds _ => h.1 ds hds
  · intro h
    rw [← haccepted, htop] at h
    rw [minLanguage_top h (by omega) (by omega), haccepted]
    exact ⟨fun _ _ => Iff.rfl, sameDigits_none fun v hv hle => by
      rw [within_min] at hle
      omega⟩

theorem naturalsFrom_zero : (chars fun c => 48 ≤ c ∧ c ≤ 48) +
    (chars fun c => 49 ≤ c ∧ c ≤ 57) * digitStrings 0 15 = naturalsFrom 0 16 := by
  have htop : minLanguage 16 0 16 true = naturalsFrom 0 16 :=
    minLanguage_top (fun _ hc => absurd hc List.not_mem_nil) (by decide) (by decide)
  exact htop

/-- A negative bound below. -/
theorem rangeRight_minNegative_iff {m : Nat} (hm : 0 < m) (hm' : (m : Int) ≤ intMax) :
    RangeRight (some (-m)) none ↔ (m : Int) ≠ intMax := by
  have hmin : intMin < -(m : Int) := by
    rw [intMax] at hm'
    rw [intMin]
    omega
  have hfragment : integerFragment (some (-m : Int)) none = _ :=
    buildMinMaxInt_minNegative 15 16 true (a := -(m : Int)) hmin (by omega)
  rw [Int.neg_neg] at hfragment
  by_cases hlast : (m : Int) = intMax
  · refine iff_of_false ?_ (not_not_intro hlast)
    rintro ⟨t, ht, _⟩
    rw [hfragment, hlast, buildMinMaxInt_none] at ht
    cases ht
  · have hlt : (m : Int) < intMax := by omega
    have hinner : buildMinMaxInt 15 intMin (m : Int) 16 false = some (betweenBounds 0 m) := by
      rw [buildMinMaxInt_max 14 16 false hlt]
      exact congrArg _ (buildMinMaxInt_between 13 16 true (a := 0) hlt)
    rw [hinner] at hfragment
    have hdigits := isSequence_digits (M := fun _ => none) (a := 49) (b := 57) (m := 0) (n := 15)
      (by decide) (by decide) (by decide) (by decide) (by decide) (by decide)
    have hnatural : IsAlternates (fun _ => none) (digitRange (byte '0') (byte '0') ++ (barText ++
        (digitRange (byte '1') (byte '9') ++ (sp ++ moreDigits 0 15)))) (naturalsFrom 0 16) := by
      rw [← naturalsFrom_zero]
      exact .bar (isItem_digitRange (f := 48) (t := 48) rfl rfl (Nat.le_refl _)).sequence
        hdigits.alternates
    rw [rangeRight_iff_parts hfragment (isAlternates_halves
      (isAlternates_between (Nat.zero_le m) hlt) hnatural)
      fun ds h => not_digits_minus ds h.1.digits]
    refine iff_of_true ⟨fun ds _ => ?_, fun ds hds hne => ?_⟩ hlast
    · rw [mem_naturalsFrom_iff]
      refine Eq.to_iff (congrArg (ds ∈ ·) (accepted_congr fun v hv => ?_))
      rw [within_min]
      omega
    · rw [mem_naturals_iff hlt]
      refine sameDigits_accepted (fun v hv => ?_) ds hds hne
      rw [within_min]
      omega

/-- A bound above that is not negative. -/
theorem rangeRight_max {b : Nat} (hb : (b : Int) < intMax) : RangeRight none (some b) := by
  have hfragment : integerFragment none (some (b : Int)) = some (quote :: byte '-' :: quote ::
      (sp ++ (digitRange (byte '1') (byte '9') ++ (sp ++ (moreDigits 0 15 ++ barText)))) ++
        betweenBounds 0 b) := by
    refine (buildMinMaxInt_max 15 16 true hb).trans ?_
    exact congrArg _ (buildMinMaxInt_between 14 16 true (a := 0) hb)
  have hdigits := isSequence_digits (M := fun _ => none) (a := 49) (b := 57) (m := 0) (n := 15)
    (by decide) (by decide) (by decide) (by decide) (by decide) (by decide)
  have hread := IsAlternates.bar (IsSequence.cons isItem_minus hdigits)
    (isAlternates_between (Nat.zero_le b) hb)
  rw [rangeRight_iff_parts hfragment (by simpa [sp, byte] using hread) minus_notMem_naturals]
  refine ⟨fun ds _ => ?_, fun ds hds hne => ?_⟩
  · rw [mem_naturals_iff hb]
    refine Eq.to_iff (congrArg (ds ∈ ·) (accepted_congr fun v hv => ?_))
    rw [within_max]
    omega
  · have hzero : ds ∉ chars fun c => 48 ≤ c ∧ c ≤ 48 := by
      rintro ⟨c, hc, rfl⟩
      exact hne (congrArg (fun c => [c]) (Nat.le_antisymm hc.2 hc.1))
    have hall : ds ∈ (chars fun c => 49 ≤ c ∧ c ≤ 57) * digitStrings 0 15 ↔
        ds ∈ naturalsFrom 0 16 := by
      rw [← naturalsFrom_zero, Language.mem_add]
      exact (or_iff_right hzero).symm
    rw [hall, mem_naturalsFrom_iff]
    refine sameDigits_accepted (fun v hv => ?_) ds hds hne
    rw [within_max]
    omega

/-- A negative bound above. -/
theorem rangeRight_maxNegative_iff {m : Nat} (hm : 0 < m) (hm' : (m : Int) ≤ intMax) :
    RangeRight none (some (-m)) ↔ SteepFromOne m := by
  have hlen := length_decimalText_int hm'
  obtain ⟨t, ht, hread⟩ := buildMinMaxInt_min (M := fun _ => none) 15 m 16 false (by omega)
    (by omega) (by decide)
  have hfragment : integerFragment none (some (-m : Int)) = _ :=
    buildMinMaxInt_maxNegative 15 16 true (b := -(m : Int)) (by omega)
  rw [Int.neg_neg, ht] at hfragment
  have haccepted : naturalsFrom m 16 = accepted fun v => Within none (some (-m : Int)) (-v) := by
    ext ds
    rw [mem_naturalsFrom_iff]
    refine Eq.to_iff (congrArg (ds ∈ ·) (accepted_congr fun v hv => ?_))
    rw [within_max]
    omega
  rw [rangeRight_iff_parts hfragment (isAlternates_negatives hread) (fun _ h => h), ← haccepted,
    minLanguage_inner_iff hm (by omega) (by omega)]
  refine and_iff_right fun ds _ => iff_of_false id (notMem_accepted (fun v hv h => ?_) ds)
  rw [within_max] at h
  omega

/-! ### Any bounds -/

/-- Where the grammar is right: no bound is the last number of its type, and the digits of a single
bound between the first and the last are at least 2 (and of a negative bound above, the first is a
1 and not the last). -/
def RangeCondition : Option Int → Option Int → Prop
  | none, none => False
  | some a, none => if a < 0 then a ≠ -intMax else Steep (decimalText a.toNat).tail
  | none, some b => 0 ≤ b ∨ SteepFromOne (-b).toNat
  | some a, some _ => a ≠ -intMax

/-- The grammar of an integer between bounds is right exactly under its condition. -/
theorem rangeRight_iff {minimum maximum : Option Int} (hgiven : minimum.isSome ∨ maximum.isSome)
    (hmin : ∀ a ∈ minimum, intMin < a ∧ a < intMax) (hmax : ∀ b ∈ maximum, intMin < b ∧ b < intMax)
    (hle : ∀ a ∈ minimum, ∀ b ∈ maximum, a ≤ b) :
    RangeRight minimum maximum ↔ RangeCondition minimum maximum := by
  have hsym : intMin = -intMax - 1 := rfl
  have hnonneg {a : Int} (h : 0 ≤ a) : ∃ n : Nat, a = n := ⟨a.toNat, by omega⟩
  have hneg {a : Int} (h : a < 0) : ∃ n : Nat, 0 < n ∧ a = -n := ⟨(-a).toNat, by omega, by omega⟩
  cases minimum with
  | none =>
    cases maximum with
    | none => simp at hgiven
    | some b =>
      have hb := hmax b rfl
      rw [RangeCondition]
      rcases lt_or_ge b 0 with hneg' | hnonneg'
      · obtain ⟨m, hm, rfl⟩ := hneg hneg'
        rw [rangeRight_maxNegative_iff hm (by omega), Int.neg_neg, Int.toNat_natCast]
        exact (or_iff_right (Int.not_le.2 hneg')).symm
      · obtain ⟨m, rfl⟩ := hnonneg hnonneg'
        exact iff_of_true (rangeRight_max hb.2) (.inl hnonneg')
  | some a =>
    have ha := hmin a rfl
    cases maximum with
    | none =>
      rw [RangeCondition]
      rcases lt_or_ge a 0 with hneg' | hnonneg'
      · obtain ⟨m, hm, rfl⟩ := hneg hneg'
        rw [rangeRight_minNegative_iff hm (by omega), if_pos hneg', Ne, Ne, Int.neg_inj]
      · obtain ⟨m, rfl⟩ := hnonneg hnonneg'
        rw [rangeRight_min_iff ha.2, if_neg (Int.not_lt.2 hnonneg'), Int.toNat_natCast]
    | some b =>
      have hb := hmax b rfl
      have hab := hle a rfl b rfl
      rw [RangeCondition]
      rcases lt_or_ge a 0 with hneg' | hnonneg'
      · obtain ⟨m, hm, rfl⟩ := hneg hneg'
        rw [Ne, Int.neg_inj]
        rcases lt_or_ge b 0 with hbneg | hbnonneg
        · obtain ⟨n, hn, rfl⟩ := hneg hbneg
          exact rangeRight_negatives_iff hn (by omega) (by omega)
        · obtain ⟨n, rfl⟩ := hnonneg hbnonneg
          exact rangeRight_mixed_iff hm (by omega) hb.2
      · obtain ⟨m, rfl⟩ := hnonneg hnonneg'
        obtain ⟨n, rfl⟩ := hnonneg (hnonneg'.trans hab)
        exact iff_of_true (rangeRight_naturals (by omega) hb.2) (by omega)

/-- The condition at the bounds 12 and 34. -/
theorem rangeRight_twelve : RangeRight (some 12) (some 34) ↔ RangeCondition (some 12) (some 34) :=
  rangeRight_iff (.inl rfl) (fun a ha => by cases ha; decide) (fun b hb => by cases hb; decide)
    (fun a ha b hb => by cases ha; cases hb; decide)

/-- From 100 on, "10" is accepted. -/
theorem range_hundred : ¬ RangeRight (some 100) none := by
  intro h
  have hsteep := (rangeRight_min_iff (a := 100) (by decide)).1 h
  exact absurd (hsteep 48 (by decide)) (by decide)

end ActQuant.Grammar
