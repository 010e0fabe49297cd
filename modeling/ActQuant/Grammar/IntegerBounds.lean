import ActQuant.Grammar.MinMaxInt

namespace ActQuant.Grammar
open Lib ActQuant.Grammar.Parser

/-! Which words the fragment for an integer with a bound below accepts. -/

/-! ### One bound below -/

/-- The words behind a lower bound alone, branch by branch as `_build_min_max_int` writes them. -/
def minLanguage : Nat → Nat → Nat → Bool → Language Nat
  | 0, _, _, _ => 0
  | fuel + 1, v, decimalsLeft, topLevel =>
    let less := max (decimalsLeft - 1) 1
    let start := if topLevel then 49 else 48
    if v = 0 then
      if topLevel then
        (chars fun c => 48 ≤ c ∧ c ≤ 48) + (chars fun c => 49 ≤ c ∧ c ≤ 57) * digitStrings 0 less
      else digitStrings 1 decimalsLeft
    else if v ≤ 9 then
      (if start < 48 + v then (chars fun c => start ≤ c ∧ c ≤ 48 + v - 1) * digitStrings 1 less
        else 0) + (chars fun c => 48 + v ≤ c ∧ c ≤ 57) * digitStrings 0 less
    else
      let minS := decimalText v
      let c := peek minS
      (if 49 < c then (chars fun d => start ≤ d ∧ d ≤ c - 1) * digitStrings minS.length less
        else 0) + ((chars fun d => c ≤ d ∧ d ≤ c) *
          minLanguage fuel (Parser.decimal minS.tail) less false +
        if c < 57 then (chars fun d => c + 1 ≤ d ∧ d ≤ 57) * digitStrings (minS.length - 1) less
        else 0)

theorem isAlternates_orBar (hp : p → IsSequence M t l) (h' : IsAlternates M t' l') [Decidable p] :
    IsAlternates M ((if p then t ++ barText else []) ++ t') ((if p then l else 0) + l') := by
  by_cases h : p
  · rw [if_pos h, if_pos h, List.append_assoc]
    exact .bar (hp h) h'
  · rw [if_neg h, if_neg h, zero_add]
    exact h'

theorem isAlternates_barOr (h : IsSequence M t l) (hp : p → IsAlternates M t' l') [Decidable p] :
    IsAlternates M (t ++ if p then barText ++ t' else []) (l + if p then l' else 0) := by
  by_cases hcond : p
  · rw [if_pos hcond, if_pos hcond]
    exact .bar h (hp hcond)
  · rw [if_neg hcond, if_neg hcond, add_zero, List.append_nil]
    exact h.alternates

theorem length_tail_decimal {ds : Text} (h : Digits ds) (hne : ds ≠ []) :
    (decimalText (Parser.decimal ds)).length ≤ ds.length :=
  (length_decimalText_le_iff (List.length_pos_iff.2 hne)).2 (decimal_lt h)

/-- A number of two digits or more. -/
theorem decimalText_eq_cons (h : 9 < v) : ∃ c ds, decimalText v = c :: ds ∧ ds ≠ [] ∧
    49 ≤ c ∧ c ≤ 57 ∧ Digits ds := by
  have hnat := isNatural_decimalText v
  have hlen : 1 < (decimalText v).length := by
    by_contra hshort
    have hlt := (length_decimalText_le_iff (n := v) Nat.one_pos).1 (by omega)
    omega
  cases hds : decimalText v with
  | nil => exact absurd hds hnat.nonempty
  | cons c ds =>
    rw [hds] at hnat hlen
    obtain ⟨hc, hdigits⟩ := digits_cons.1 hnat.digits
    rw [List.length_cons] at hlen
    have hne : c ≠ 48 := fun hzero => by
      have hone := hnat.lead hzero
      rw [List.length_cons] at hone
      omega
    rw [isDigitChar_iff] at hc
    exact ⟨c, ds, rfl, List.ne_nil_of_length_pos (by omega), by omega, hc.2, hdigits⟩

theorem isSequence_digits (hab : a ≤ b) (ha : 48 ≤ a) (hb : b ≤ 57) (hmn : m ≤ n) (hn : 0 < n)
    (hfits : n < 2 ^ 31 - 1) : IsSequence M (digitRange a b ++ (sp ++ moreDigits m n))
      ((chars fun c => a ≤ c ∧ c ≤ b) * digitStrings m n) :=
  .cons (isItem_digitRange (isDigitChar_iff.2 ⟨ha, hab.trans hb⟩)
    (isDigitChar_iff.2 ⟨ha.trans hab, hb⟩) hab) (isItem_moreDigits hmn hn hfits).sequence

/-- What is written for a lower bound alone. -/
theorem buildMinMaxInt_min (fuel v dl : Nat) (top : Bool) (hfuel : (decimalText v).length ≤ fuel)
    (hdl : (decimalText v).length < dl) (hfits : dl < 2 ^ 31 - 1) :
    ∃ t, buildMinMaxInt fuel v intMax dl top = some t ∧
      IsAlternates M t (minLanguage fuel v dl top) := by
  induction fuel generalizing v dl top with
  | zero =>
    have hpos := length_decimalText_pos v
    omega
  | succ fuel ih =>
    have hpos := length_decimalText_pos v
    have hmin : (v : Int) ≠ intMin := by
      rw [intMin]
      omega
    have hless : max (dl - 1) 1 = dl - 1 := by omega
    rw [buildMinMaxInt, minLanguage]
    simp only [ne_eq, hmin, not_false_iff, not_true_eq_false, and_false, if_false, if_true, hless]
    rw [if_neg (by omega)]
    by_cases hzero : v = 0
    · rw [if_pos (by omega), if_pos hzero]
      cases top with
      | true =>
        refine ⟨_, rfl, ?_⟩
        exact .bar (isItem_digitRange rfl rfl (Nat.le_refl _)).sequence
          (isSequence_digits (by decide) (by decide) (by decide) (Nat.zero_le _) (by omega)
            (by omega)).alternates
      | false =>
        exact ⟨_, rfl, (isItem_moreDigits (by omega) (by omega) hfits).sequence.alternates⟩
    · rw [if_neg (by omega), if_neg hzero]
      by_cases hone : v ≤ 9
      · rw [if_pos (by omega), if_pos hone]
        refine ⟨_, rfl, ?_⟩
        have hbytes : byte '0' + (v : Int).toNat = 48 + v := rfl
        have hstart : (if top = true then byte '1' else byte '0') = if top = true then 49 else 48 :=
          rfl
        have hge : 48 ≤ if top = true then 49 else 48 := by split <;> decide
        rw [hbytes, hstart]
        have hrest := isSequence_digits (M := M) (a := 48 + v) (b := 57) (m := 0) (n := dl - 1)
          (by omega) (by omega) (by omega) (Nat.zero_le _) (by omega) (by omega)
        have hboth := isAlternates_orBar (p := (if top = true then 49 else 48) < 48 + v)
          (fun hlt => isSequence_digits (M := M) (a := if top = true then 49 else 48)
            (b := 48 + v - 1) (m := 1) (n := dl - 1) (by omega) hge (by omega) (by omega) (by omega)
            (by omega)) hrest.alternates
        simpa [byte] using hboth
      · rw [if_neg (by omega), if_neg hone]
        obtain ⟨c, ds, htext, hne, hc, hc', hds⟩ := decimalText_eq_cons (Nat.lt_of_not_le hone)
        have htoNat : (v : Int).toNat = v := rfl
        rw [htoNat, htext]
        rw [htext, List.length_cons] at hfuel hdl
        have hdspos := List.length_pos_iff.2 hne
        have htail := length_tail_decimal hds hne
        obtain ⟨t, ht, hread⟩ := ih (Parser.decimal ds) (dl - 1) false (by omega) (by omega)
          (by omega)
        have hpeek : peek (c :: ds) = c := rfl
        rw [List.tail_cons, ht, hpeek, List.length_cons, Nat.add_sub_cancel]
        refine ⟨_, rfl, ?_⟩
        have hge : 48 ≤ if top = true then 49 else 48 := by split <;> decide
        have hmiddle := IsSequence.cons (M := M) (isItem_digitRange (f := c) (t := c)
          (isDigitChar_iff.2 ⟨by omega, hc'⟩) (isDigitChar_iff.2 ⟨by omega, hc'⟩) (Nat.le_refl c))
          (hread.group 0 0).sequence
        have hlast := isAlternates_barOr (p := c < 57) hmiddle fun hlt =>
          (isSequence_digits (M := M) (a := c + 1) (b := 57) (m := ds.length) (n := dl - 1)
            (by omega) (by omega) (by omega) (by omega) (by omega) (by omega)).alternates
        have hall := isAlternates_orBar (p := 49 < c) (fun hlt =>
          isSequence_digits (M := M) (a := if top = true then 49 else 48) (b := c - 1)
            (m := ds.length + 1) (n := dl - 1) (by split <;> omega) hge (by omega) (by omega)
            (by omega) (by omega)) hlast
        rw [groupText_zero] at hall
        simpa [sp, byte] using hall

/-! ### Its words -/

/-- The digits of numbers that are not smaller, of a length and up to another. -/
def atLeast (s : Text) (decimalsLeft : Nat) : Language Nat :=
  {w | Digits w ∧ s.length ≤ w.length ∧ w.length ≤ decimalsLeft ∧
    (w.length = s.length → Parser.decimal s ≤ Parser.decimal w)}

/-- Every digit but the last is at least 2. -/
def Steep (s : Text) : Prop := ∀ c ∈ s.dropLast, byte '2' ≤ c

theorem mem_atLeast {s w : Text} {dl : Nat} : w ∈ atLeast s dl ↔ Digits w ∧ s.length ≤ w.length ∧
    w.length ≤ dl ∧ (w.length = s.length → Parser.decimal s ≤ Parser.decimal w) := Iff.rfl

theorem cons_mem_ite_chars_mul {q : Nat → Prop} {l : Language Nat} {c : Nat} {u : List Nat}
    [Decidable p] : c :: u ∈ (if p then chars q * l else 0) ↔ p ∧ q c ∧ u ∈ l := by
  by_cases hp : p
  · rw [if_pos hp, cons_mem_chars_mul]
    exact (and_iff_right hp).symm
  · rw [if_neg hp]
    exact iff_of_false id fun h => hp h.1

theorem cons_mem_minLanguage_small (hv : v ≠ 0) (hone : v ≤ 9) (hdl : 1 < dl) {u : List Nat} :
    c :: u ∈ minLanguage (fuel + 1) v dl top ↔
      (if top then 49 else 48) ≤ c ∧ c < 48 + v ∧ u ∈ digitStrings 1 (dl - 1) ∨
        48 + v ≤ c ∧ c ≤ 57 ∧ u ∈ digitStrings 0 (dl - 1) := by
  have hless : max (dl - 1) 1 = dl - 1 := by omega
  rw [minLanguage]
  simp only [hless]
  rw [if_neg hv, if_pos hone, Language.mem_add, cons_mem_ite_chars_mul, cons_mem_chars_mul]
  constructor
  · rintro (⟨hlt, ⟨hge, hle⟩, hu⟩ | ⟨⟨hge, hle⟩, hu⟩)
    · exact .inl ⟨hge, by omega, hu⟩
    · exact .inr ⟨hge, hle, hu⟩
  · rintro (⟨hge, hlt, hu⟩ | ⟨hge, hle, hu⟩)
    · exact .inl ⟨by omega, ⟨hge, by omega⟩, hu⟩
    · exact .inr ⟨⟨hge, hle⟩, hu⟩

/-- The digits of a number of two digits or more. -/
structure Leading (c : Nat) (ds : Text) : Prop where
  lead : 49 ≤ c
  digit : c ≤ 57
  digits : Digits ds
  nonempty : ds ≠ []

theorem exists_leading (h : ¬ v ≤ 9) :
    ∃ c ds, decimalText v = c :: ds ∧ Leading c ds ∧ Parser.decimal (c :: ds) = v := by
  obtain ⟨c, ds, htext, hne, hc, hc', hds⟩ := decimalText_eq_cons (Nat.lt_of_not_le h)
  exact ⟨c, ds, htext, ⟨hc, hc', hds, hne⟩, by rw [← htext, decimal_decimalText]⟩

theorem Leading.all_digits (h : Leading c ds) : Digits (c :: ds) :=
  digits_cons.2 ⟨isDigitChar_iff.2 ⟨by have := h.lead; omega, h.digit⟩, h.digits⟩

theorem Leading.le_decimal (h : Leading c ds) : 10 ^ ds.length ≤ Parser.decimal (c :: ds) := by
  have hlead := h.lead
  have hle : 1 * 10 ^ ds.length ≤ (c - 48) * 10 ^ ds.length :=
    Nat.mul_le_mul_right _ (by omega)
  rw [decimal_cons]
  omega

theorem Leading.decimalText (h : Leading c ds) :
    decimalText (Parser.decimal (c :: ds)) = c :: ds :=
  decimalText_decimal h.all_digits h.le_decimal

theorem Leading.lt_decimal (h : Leading c ds) : 9 < Parser.decimal (c :: ds) := by
  have hle := h.le_decimal
  have hpow : 10 ^ 1 ≤ 10 ^ ds.length :=
    Nat.pow_le_pow_right (by decide) (List.length_pos_iff.2 h.nonempty)
  omega

theorem cons_mem_minLanguage (h : Leading c ds) (hdl : 1 < dl) {d : Nat} {u : List Nat} :
    d :: u ∈ minLanguage (fuel + 1) (Parser.decimal (c :: ds)) dl top ↔
      (49 < c ∧ (if top then 49 else 48) ≤ d ∧ d < c ∧ u ∈ digitStrings (ds.length + 1) (dl - 1)) ∨
        d = c ∧ u ∈ minLanguage fuel (Parser.decimal ds) (dl - 1) false ∨
          c < d ∧ d ≤ 57 ∧ u ∈ digitStrings ds.length (dl - 1) := by
  have hless : max (dl - 1) 1 = dl - 1 := by omega
  have hlt := h.lt_decimal
  have hpeek : peek (c :: ds) = c := rfl
  rw [minLanguage]
  simp only [hless, h.decimalText, hpeek, List.tail_cons, List.length_cons, Nat.add_sub_cancel]
  rw [if_neg (by omega), if_neg (by omega), Language.mem_add, Language.mem_add,
    cons_mem_ite_chars_mul, cons_mem_chars_mul, cons_mem_ite_chars_mul]
  constructor
  · rintro (⟨hc, ⟨hge, hle⟩, hu⟩ | ⟨⟨hge, hle⟩, hu⟩ | ⟨hc, ⟨hge, hle⟩, hu⟩)
    · exact .inl ⟨hc, hge, by omega, hu⟩
    · exact .inr (.inl ⟨by omega, hu⟩)
    · exact .inr (.inr ⟨by omega, hle, hu⟩)
  · rintro (⟨hc, hge, hlt, hu⟩ | ⟨rfl, hu⟩ | ⟨hlt, hle, hu⟩)
    · exact .inl ⟨hc, ⟨hge, by omega⟩, hu⟩
    · exact .inr (.inl ⟨⟨Nat.le_refl _, Nat.le_refl _⟩, hu⟩)
    · exact .inr (.inr ⟨by omega, ⟨by omega, hle⟩, hu⟩)

theorem minLanguage_zero (fuel dl : Nat) :
    minLanguage (fuel + 1) 0 dl false = digitStrings 1 dl := rfl

theorem minLanguage_zero_top (fuel dl : Nat) : minLanguage (fuel + 1) 0 dl true =
    (chars fun c => 48 ≤ c ∧ c ≤ 48) +
      (chars fun c => 49 ≤ c ∧ c ≤ 57) * digitStrings 0 (max (dl - 1) 1) := rfl

theorem nil_notMem_minLanguage : [] ∉ minLanguage fuel v dl top := by
  have hnil {p : Nat → Prop} {l : Language Nat} : ([] : List Nat) ∉ chars p * l :=
    nil_notMem_chars_mul
  have hite {p : Prop} [Decidable p] {q : Nat → Prop} {l : Language Nat} :
      ([] : List Nat) ∉ if p then chars q * l else 0 := by
    split
    · exact hnil
    · exact id
  cases fuel with
  | zero => exact id
  | succ fuel =>
    rw [minLanguage]
    dsimp only
    split
    · split
      · exact not_or_intro (fun h => nomatch h) hnil
      · exact fun h => absurd h.2.1 (by decide)
    · split
      · exact not_or_intro hite hnil
      · exact not_or_intro hite (not_or_intro hnil hite)

/-- A comparison at the first digit. -/
theorem cons_mem_atLeast {c d dl : Nat} {ds u : List Nat} (hc : isDigitChar c = true)
    (hds : Digits ds) : d :: u ∈ atLeast (c :: ds) (dl + 1) ↔
      Digits u ∧ 48 ≤ d ∧ d ≤ 57 ∧ ds.length ≤ u.length ∧ u.length ≤ dl ∧
        (u.length = ds.length → c < d ∨ c = d ∧ Parser.decimal ds ≤ Parser.decimal u) := by
  rw [mem_atLeast, digits_cons, List.length_cons, List.length_cons, Nat.add_le_add_iff_right,
    Nat.add_le_add_iff_right, Nat.add_right_cancel_iff, isDigitChar_iff, and_comm (b := Digits u),
    and_assoc, and_assoc]
  refine and_congr_right fun hu => and_congr_right fun hd => and_congr_right fun hd' =>
    and_congr_right fun _ => and_congr_right fun _ => imp_congr_right fun hlen => ?_
  have hlt := decimal_lt hds
  have hlt' := decimal_lt hu
  rw [isDigitChar_iff] at hc
  rw [hlen] at hlt'
  rw [decimal_cons, decimal_cons, hlen, leading_le_iff hlt hlt']
  omega

theorem atLeast_zero (dl : Nat) : atLeast [48] dl = digitStrings 1 dl := by
  ext w
  exact ⟨fun h => ⟨h.1, h.2.1, h.2.2.1⟩, fun h => ⟨h.1, h.2.1, h.2.2, fun _ => Nat.zero_le _⟩⟩

theorem steep_cons_cons : Steep (c :: c' :: ds) ↔ 50 ≤ c ∧ Steep (c' :: ds) := by
  rw [Steep, List.dropLast_cons_cons, List.forall_mem_cons]
  rfl

/-- Behind a first digit, the words are the right ones where all but the last digit are at
least 2. -/
theorem minLanguage_steep {s : Text} (hs : Digits s) (hne : s ≠ []) (hsteep : Steep s)
    (hfuel : s.length ≤ fuel) (hdl : s.length < dl) :
    minLanguage fuel (Parser.decimal s) dl false = atLeast s dl := by
  induction s generalizing fuel dl with
  | nil => exact absurd rfl hne
  | cons c ds ih =>
    obtain ⟨hc, hds⟩ := digits_cons.1 hs
    have hc' := isDigitChar_iff.1 hc
    rw [List.length_cons] at hfuel hdl
    obtain ⟨fuel, rfl⟩ : ∃ n, fuel = n + 1 := ⟨fuel - 1, by omega⟩
    obtain ⟨dl, rfl⟩ : ∃ n, dl = n + 1 := ⟨dl - 1, by omega⟩
    ext w
    cases w with
    | nil => exact iff_of_false nil_notMem_minLanguage fun h => nomatch h.2.1
    | cons d u =>
      cases ds with
      | nil =>
        have hvalue : Parser.decimal [c] = c - 48 := by
          rw [decimal_cons]
          exact Nat.mul_one _
        by_cases hzero : c = 48
        · subst hzero
          rw [hvalue, atLeast_zero]
          rfl
        · rw [hvalue, cons_mem_minLanguage_small (by omega) (by omega) (by omega),
            cons_mem_atLeast hc hds, Nat.add_sub_cancel, if_neg Bool.false_ne_true,
            mem_digitStrings, mem_digitStrings, List.length_nil]
          have hnil : Parser.decimal [] = 0 := rfl
          by_cases hu : Digits u
          · simp only [hu, true_and]
            omega
          · simp only [hu, false_and, and_false, or_false]
      | cons c₂ ds =>
        obtain ⟨hge, hsteep⟩ := steep_cons_cons.1 hsteep
        have hlead : Leading c (c₂ :: ds) := ⟨by omega, hc'.2, hds, List.cons_ne_nil _ _⟩
        rw [cons_mem_minLanguage hlead (by omega), Nat.add_sub_cancel, if_neg Bool.false_ne_true,
          ih hds (List.cons_ne_nil _ _) hsteep (by omega) (by omega), cons_mem_atLeast hc hds,
          mem_atLeast, mem_digitStrings, mem_digitStrings]
        by_cases hu : Digits u
        · simp only [hu, true_and]
          omega
        · simp only [hu, false_and, and_false, or_false]

/-- Nines are accepted, of any length from that of the bound without its zeros on. -/
theorem nines_mem_minLanguage (k : Nat) (hv : v < 10 ^ (k + 1)) (hkdl : k < dl)
    (hfuel : (decimalText v).length ≤ fuel) (hdl : (decimalText v).length < dl) :
    List.replicate (k + 1) 57 ∈ minLanguage fuel v dl top := by
  induction fuel generalizing v k dl top with
  | zero =>
    have hpos := length_decimalText_pos v
    omega
  | succ fuel ih =>
    have hpos := length_decimalText_pos v
    have hnines (k : Nat) : Digits (List.replicate k 57) := digits_replicate k rfl
    have hmem {m : Nat} (hm : m ≤ k) : List.replicate k 57 ∈ digitStrings m (dl - 1) := by
      rw [mem_digitStrings, List.length_replicate]
      exact ⟨hnines k, hm, by omega⟩
    rw [List.replicate_succ]
    by_cases hzero : v = 0
    · subst hzero
      cases top with
      | true =>
        have hless : max (dl - 1) 1 = dl - 1 := by omega
        rw [minLanguage_zero_top, hless, Language.mem_add, cons_mem_chars_mul]
        exact .inr ⟨⟨by decide, by decide⟩, hmem (Nat.zero_le k)⟩
      | false =>
        rw [minLanguage_zero, mem_digitStrings, ← List.replicate_succ, List.length_replicate]
        exact ⟨hnines _, by omega, by omega⟩
    · by_cases hone : v ≤ 9
      · rw [cons_mem_minLanguage_small hzero hone (by omega)]
        exact .inr ⟨by omega, by omega, hmem (Nat.zero_le k)⟩
      · obtain ⟨c, ds, htext, hlead, rfl⟩ := exists_leading hone
        have ⟨hc, hc', hds, hne⟩ := hlead
        have hdspos := List.length_pos_iff.2 hne
        have hdslen := length_tail_decimal hds hne
        rw [htext, List.length_cons] at hfuel hdl
        have hk : ds.length ≤ k := by
          by_contra hlt
          have hpow : 10 ^ (k + 1) ≤ 10 ^ ds.length :=
            Nat.pow_le_pow_right (by decide) (by omega)
          have hle := hlead.le_decimal
          omega
        rw [cons_mem_minLanguage hlead (by omega)]
        by_cases hnine : c = 57
        · obtain ⟨k, rfl⟩ : ∃ n, k = n + 1 := ⟨k - 1, by omega⟩
          have hlt : Parser.decimal ds < 10 ^ (k + 1) :=
            (decimal_lt hds).trans_le (Nat.pow_le_pow_right (by decide) hk)
          exact .inr (.inl ⟨hnine.symm, ih k hlt (by omega) (by omega) (by omega)⟩)
        · exact .inr (.inr ⟨by omega, by omega, hmem hk⟩)

/-- A word that is wrong where a digit before the last one is 0 or 1. -/
theorem minLanguage_not_steep {s : Text} (hs : Digits s) (hsteep : ¬ Steep s)
    (hfuel : s.length ≤ fuel) (hdl : s.length < dl) :
    ∃ w, Digits w ∧
      ¬ (w ∈ minLanguage fuel (Parser.decimal s) dl false ↔ w ∈ atLeast s dl) := by
  induction s generalizing fuel dl with
  | nil => exact absurd (fun c hc => absurd hc List.not_mem_nil) hsteep
  | cons c ds ih =>
    obtain ⟨hc, hds⟩ := digits_cons.1 hs
    have hc' := isDigitChar_iff.1 hc
    cases ds with
    | nil => exact absurd (fun c hc => absurd hc List.not_mem_nil) hsteep
    | cons c₂ ds =>
      rw [List.length_cons] at hfuel hdl
      have hlen : (c₂ :: ds).length = ds.length + 1 := rfl
      obtain ⟨fuel, rfl⟩ : ∃ n, fuel = n + 1 := ⟨fuel - 1, by omega⟩
      obtain ⟨dl, rfl⟩ : ∃ n, dl = n + 1 := ⟨dl - 1, by omega⟩
      have hlt := decimal_lt hds
      by_cases hzero : c = 48
      · -- the zero is gone, and nines that are too short are accepted
        subst hzero
        have hvalue : Parser.decimal (48 :: c₂ :: ds) = Parser.decimal (c₂ :: ds) := by
          rw [decimal_cons, Nat.sub_self, Nat.zero_mul, Nat.zero_add]
        have htext := length_tail_decimal hds (List.cons_ne_nil _ _)
        rw [hvalue]
        refine ⟨List.replicate (ds.length + 1) 57, digits_replicate _ rfl,
          not_iff.2 (iff_of_false (not_not_intro ?_) ?_)⟩
        · exact nines_mem_minLanguage _ hlt (by omega) (by omega) (by omega)
        · rintro ⟨_, hle, _⟩
          rw [List.length_replicate, List.length_cons] at hle
          omega
      · have hlead : Leading c (c₂ :: ds) := ⟨by omega, hc'.2, hds, List.cons_ne_nil _ _⟩
        by_cases hone : c = 49
        · -- a longer number cannot start with a zero
          subst hone
          refine ⟨48 :: List.replicate (ds.length + 2) 48,
            digits_cons.2 ⟨rfl, digits_replicate _ rfl⟩, not_iff.2 (iff_of_true ?_ ?_)⟩
          · rw [cons_mem_minLanguage hlead (by omega)]
            omega
          · rw [cons_mem_atLeast hc hds, List.length_replicate]
            exact ⟨digits_replicate _ rfl, by omega, by omega, by omega, by omega, by omega⟩
        · have hsteep' : ¬ Steep (c₂ :: ds) := fun h =>
            hsteep (steep_cons_cons.2 ⟨by omega, h⟩)
          have hfuel' : (c₂ :: ds).length ≤ fuel := by omega
          have hdl' : (c₂ :: ds).length < dl := by omega
          obtain ⟨w, hdigits, hw⟩ := ih hds hsteep' hfuel' hdl'
          refine ⟨c :: w, digits_cons.2 ⟨hc, hdigits⟩, ?_⟩
          have hleft : c :: w ∈ minLanguage (fuel + 1) (Parser.decimal (c :: c₂ :: ds)) (dl + 1)
              false ↔ w ∈ minLanguage fuel (Parser.decimal (c₂ :: ds)) dl false := by
            rw [cons_mem_minLanguage hlead (by omega), Nat.add_sub_cancel]
            simp only [Nat.lt_irrefl, false_and, and_false, true_and, false_or, or_false]
          have hright : c :: w ∈ atLeast (c :: c₂ :: ds) (dl + 1) ↔ w ∈ atLeast (c₂ :: ds) dl := by
            rw [cons_mem_atLeast hc hds, mem_atLeast]
            have hirrefl : ¬ c < c := Nat.lt_irrefl c
            simp only [hc', hirrefl, true_and, false_or]
          rwa [hleft, hright]

/-! ### Numbers without leading zeros -/

/-- The numbers that are not smaller, of at most so many digits. -/
def naturalsFrom (v decimalsLeft : Nat) : Language Nat :=
  {w | IsNatural w ∧ w.length ≤ decimalsLeft ∧ v ≤ Parser.decimal w}

theorem mem_naturalsFrom {v dl : Nat} {w : List Nat} : w ∈ naturalsFrom v dl ↔
    IsNatural w ∧ w.length ≤ dl ∧ v ≤ Parser.decimal w := Iff.rfl

theorem isNatural_cons {c : Nat} {ds : Text} :
    IsNatural (c :: ds) ↔ 48 ≤ c ∧ c ≤ 57 ∧ Digits ds ∧ (c = 48 → ds.length = 0) := by
  rw [← and_assoc, ← isDigitChar_iff, ← and_assoc, ← digits_cons]
  constructor
  · exact fun h => ⟨h.digits, fun hc => Nat.succ.inj (h.lead hc)⟩
  · exact fun h => ⟨h.1, List.cons_ne_nil _ _, fun hc => congrArg Nat.succ (h.2 hc)⟩

theorem not_isNatural_nil : ¬ IsNatural [] := fun h => h.nonempty rfl

/-- A number of more digits is greater. -/
theorem Leading.le_iff (h : Leading c ds) (hd : 49 ≤ d) (hd' : d ≤ 57) (hu : Digits u) :
    Parser.decimal (c :: ds) ≤ Parser.decimal (d :: u) ↔ ds.length ≤ u.length ∧
      (u.length = ds.length → c < d ∨ c = d ∧ Parser.decimal ds ≤ Parser.decimal u) := by
  have hle : 1 * 10 ^ u.length ≤ (d - 48) * 10 ^ u.length :=
    Nat.mul_le_mul_right _ (by omega)
  have hle' := h.le_decimal
  have hlt := decimal_lt h.all_digits
  have hlt' := decimal_lt (digits_cons.2 ⟨isDigitChar_iff.2 ⟨by omega, hd'⟩, hu⟩)
  rw [List.length_cons] at hlt hlt'
  rcases Nat.lt_trichotomy u.length ds.length with hshort | heq | hlong
  · have hpow : 10 ^ (u.length + 1) ≤ 10 ^ ds.length := Nat.pow_le_pow_right (by decide) hshort
    exact iff_of_false (by omega) (by omega)
  · have hdigit := h.lead
    have hds := decimal_lt h.digits
    have hus := decimal_lt hu
    rw [heq] at hus
    rw [decimal_cons, decimal_cons, heq, leading_le_iff hds hus]
    omega
  · have hpow : 10 ^ (ds.length + 1) ≤ 10 ^ u.length := Nat.pow_le_pow_right (by decide) hlong
    rw [decimal_cons d]
    exact iff_of_true (by omega) (by omega)

theorem cons_mem_naturalsFrom (h : Leading c ds) {d dl : Nat} {u : List Nat} :
    d :: u ∈ naturalsFrom (Parser.decimal (c :: ds)) (dl + 1) ↔
      Digits u ∧ 49 ≤ d ∧ d ≤ 57 ∧ ds.length ≤ u.length ∧ u.length ≤ dl ∧
        (u.length = ds.length → c < d ∨ c = d ∧ Parser.decimal ds ≤ Parser.decimal u) := by
  rw [mem_naturalsFrom, isNatural_cons, List.length_cons, Nat.add_le_add_iff_right]
  have hlt := h.lt_decimal
  constructor
  · rintro ⟨⟨hd, hd', hu, hzero⟩, hlen, hle⟩
    have hd : 49 ≤ d := by
      by_contra hsmall
      obtain rfl : d = 48 := by omega
      obtain rfl : u = [] := List.length_eq_zero_iff.1 (hzero rfl)
      have hvalue : Parser.decimal [48] = 0 := rfl
      omega
    obtain ⟨hlen', hcmp⟩ := (h.le_iff hd hd' hu).1 hle
    exact ⟨hu, hd, hd', hlen', hlen, hcmp⟩
  · rintro ⟨hu, hd, hd', hlen', hlen, hcmp⟩
    exact ⟨⟨by omega, hd', hu, fun hzero => by omega⟩, hlen,
      (h.le_iff hd hd' hu).2 ⟨hlen', hcmp⟩⟩

theorem digits_nil : Digits [] := fun _ hc => absurd hc List.not_mem_nil

theorem cons_mem_naturalsFrom_small (hone : v ≤ 9) {d dl : Nat} {u : List Nat} :
    d :: u ∈ naturalsFrom v (dl + 1) ↔ Digits u ∧ u.length ≤ dl ∧ 48 ≤ d ∧ d ≤ 57 ∧
      (d = 48 → u.length = 0) ∧ (u.length = 0 → 48 + v ≤ d) := by
  rw [mem_naturalsFrom, isNatural_cons, List.length_cons, Nat.add_le_add_iff_right]
  cases u with
  | nil =>
    have hvalue : Parser.decimal [d] = d - 48 := by
      rw [decimal_cons]
      exact Nat.mul_one _
    simp only [hvalue, digits_nil, true_and, List.length_nil, implies_true, true_imp_iff, and_true]
    omega
  | cons d₂ u =>
    rw [decimal_cons, List.length_cons, Nat.pow_succ]
    have hpow : 0 < 10 ^ u.length := Nat.pow_pos (by decide)
    constructor
    · rintro ⟨⟨hd, hd', hu, hzero⟩, hlen, _⟩
      exact ⟨hu, hlen, hd, hd', hzero, fun h => nomatch h⟩
    · rintro ⟨hu, hlen, hd, hd', hzero, _⟩
      have hle : 1 * (10 ^ u.length * 10) ≤ (d - 48) * (10 ^ u.length * 10) :=
        Nat.mul_le_mul_right _ (by omega)
      exact ⟨⟨hd, hd', hu, hzero⟩, hlen, by omega⟩

theorem cons_mem_chars {p : Nat → Prop} {d : Nat} {u : List Nat} :
    d :: u ∈ chars p ↔ p d ∧ u.length = 0 := by
  rw [← mul_one (chars p), cons_mem_chars_mul, Language.mem_one, List.length_eq_zero_iff]

theorem cons_mem_minLanguage_top_small (hone : v ≤ 9) {d dl : Nat} {u : List Nat} (hdl : 0 < dl) :
    d :: u ∈ minLanguage (fuel + 1) v (dl + 1) true ↔ d :: u ∈ naturalsFrom v (dl + 1) := by
  have hempty : u.length = 0 → Digits u := fun h => List.length_eq_zero_iff.1 h ▸ digits_nil
  rw [cons_mem_naturalsFrom_small hone]
  by_cases hzero : v = 0
  · subst hzero
    have hless : max (dl + 1 - 1) 1 = dl := by omega
    rw [minLanguage_zero_top, hless, Language.mem_add, cons_mem_chars_mul, cons_mem_chars,
      mem_digitStrings]
    by_cases hu : Digits u
    · simp only [hu, true_and]
      omega
    · have hne : u.length ≠ 0 := fun h => hu (hempty h)
      simp only [hu, hne, false_and, and_false, or_false]
  · rw [cons_mem_minLanguage_small hzero hone (by omega), Nat.add_sub_cancel, if_pos rfl,
      mem_digitStrings, mem_digitStrings]
    by_cases hu : Digits u
    · simp only [hu, true_and]
      omega
    · simp only [hu, false_and, and_false, or_false]

/-- The words of the whole grammar are the right ones where the digits between the first and the
last are at least 2. -/
theorem minLanguage_top (hsteep : Steep (decimalText v).tail)
    (hfuel : (decimalText v).length ≤ fuel) (hdl : (decimalText v).length < dl) :
    minLanguage fuel v dl true = naturalsFrom v dl := by
  have hpos := length_decimalText_pos v
  obtain ⟨fuel, rfl⟩ : ∃ n, fuel = n + 1 := ⟨fuel - 1, by omega⟩
  obtain ⟨dl, rfl⟩ : ∃ n, dl = n + 1 := ⟨dl - 1, by omega⟩
  ext w
  cases w with
  | nil => exact iff_of_false nil_notMem_minLanguage fun h => not_isNatural_nil h.1
  | cons d u =>
    by_cases hone : v ≤ 9
    · exact cons_mem_minLanguage_top_small hone (by omega)
    · obtain ⟨c, ds, htext, hlead, rfl⟩ := exists_leading hone
      have ⟨hc, hc', hds, hne⟩ := hlead
      rw [htext] at hsteep
      rw [htext, List.length_cons] at hfuel hdl
      rw [cons_mem_minLanguage hlead (by omega), Nat.add_sub_cancel,
        minLanguage_steep hds hne hsteep (by omega) (by omega), cons_mem_naturalsFrom hlead,
        mem_atLeast, mem_digitStrings, mem_digitStrings, if_pos rfl]
      by_cases hu : Digits u
      · simp only [hu, true_and]
        omega
      · simp only [hu, false_and, and_false, or_false]

/-- Two languages have the same digits in them, where a zero alone is left open. -/
def SameDigits (l l' : Language Nat) : Prop :=
  ∀ ds, Digits ds → ds ≠ [byte '0'] → (ds ∈ l ↔ ds ∈ l')

theorem minLanguage_top_iff (hfuel : (decimalText v).length ≤ fuel)
    (hdl : (decimalText v).length < dl) :
    SameDigits (minLanguage fuel v dl true) (naturalsFrom v dl) ↔ Steep (decimalText v).tail := by
  constructor
  · intro h
    by_contra hsteep
    by_cases hone : v ≤ 9
    · have hlen := (length_decimalText_le_iff (n := v) Nat.one_pos).2 (by omega)
      have htail : (decimalText v).tail = [] := by
        rw [← List.length_eq_zero_iff, List.length_tail]
        omega
      exact hsteep (htail ▸ fun c hc => absurd hc List.not_mem_nil)
    · obtain ⟨c, ds, htext, hlead, rfl⟩ := exists_leading hone
      have ⟨hc, hc', hds, hne⟩ := hlead
      rw [htext] at hsteep
      rw [htext, List.length_cons] at hfuel hdl
      obtain ⟨fuel, rfl⟩ : ∃ n, fuel = n + 1 := ⟨fuel - 1, by omega⟩
      obtain ⟨dl, rfl⟩ : ∃ n, dl = n + 1 := ⟨dl - 1, by omega⟩
      have hfuel' : ds.length ≤ fuel := by omega
      have hdl' : ds.length < dl := by omega
      obtain ⟨w, hdigits, hw⟩ := minLanguage_not_steep hds hsteep hfuel' hdl'
      have hleft : c :: w ∈ minLanguage (fuel + 1) (Parser.decimal (c :: ds)) (dl + 1) true ↔
          w ∈ minLanguage fuel (Parser.decimal ds) dl false := by
        rw [cons_mem_minLanguage hlead (by omega), Nat.add_sub_cancel]
        simp only [Nat.lt_irrefl, false_and, and_false, true_and, false_or, or_false]
      have hright : c :: w ∈ naturalsFrom (Parser.decimal (c :: ds)) (dl + 1) ↔
          w ∈ atLeast ds dl := by
        have hirrefl : ¬ c < c := Nat.lt_irrefl c
        rw [cons_mem_naturalsFrom hlead, mem_atLeast]
        simp only [hc, hc', hirrefl, true_and, false_or]
      have hzero : c :: w ≠ [byte '0'] := fun heq => by
        have hc48 : c = 48 := (List.cons.inj heq).1
        omega
      have hsame := h (c :: w) (digits_cons.2 ⟨isDigitChar_iff.2 ⟨by omega, hc'⟩, hdigits⟩) hzero
      rw [hleft, hright] at hsame
      exact hw hsame
  · exact fun hsteep ds _ _ => by rw [minLanguage_top hsteep hfuel hdl]

/-- Where the first digit is a 1, no zero comes before it. -/
theorem minLanguage_one {ds : Text} (h : Leading 49 ds) (hfuel : 0 < fuel) (hdl : 1 < dl) :
    minLanguage fuel (Parser.decimal (49 :: ds)) dl false =
      minLanguage fuel (Parser.decimal (49 :: ds)) dl true := by
  obtain ⟨fuel, rfl⟩ : ∃ n, fuel = n + 1 := ⟨fuel - 1, by omega⟩
  ext w
  cases w with
  | nil => exact iff_of_false nil_notMem_minLanguage nil_notMem_minLanguage
  | cons d u =>
    rw [cons_mem_minLanguage h hdl, cons_mem_minLanguage h hdl]
    simp only [Nat.lt_irrefl, false_and]

/-- The bounds whose grammar is right without its sign: a 1 and then digits that are at least 2. -/
def SteepFromOne (v : Nat) : Prop :=
  9 < v ∧ peek (decimalText v) = byte '1' ∧ Steep (decimalText v).tail

theorem minLanguage_inner_iff (hpos : 0 < v) (hfuel : (decimalText v).length ≤ fuel)
    (hdl : (decimalText v).length + 1 < dl) :
    SameDigits (minLanguage fuel v dl false) (naturalsFrom v dl) ↔ SteepFromOne v := by
  have hlenpos := length_decimalText_pos v
  have hzeros {k : Nat} (hk : 0 < k) : 48 :: List.replicate k 48 ∉ naturalsFrom v dl := fun h => by
    have hlead := (isNatural_cons.1 h.1).2.2.2 rfl
    rw [List.length_replicate] at hlead
    omega
  have hwrong {k : Nat} (hk : 0 < k)
      (hmem : 48 :: List.replicate k 48 ∈ minLanguage fuel v dl false) :
      ¬ SameDigits (minLanguage fuel v dl false) (naturalsFrom v dl) := fun h => by
    refine hzeros hk ((h _ (digits_cons.2 ⟨rfl, digits_replicate _ rfl⟩) fun heq => ?_).1 hmem)
    have hnil : List.replicate k 48 = [] := (List.cons.inj heq).2
    rw [← List.length_eq_zero_iff, List.length_replicate] at hnil
    omega
  by_cases hone : v ≤ 9
  · refine iff_of_false (hwrong Nat.one_pos ?_) fun h => absurd h.1 (Nat.not_lt.2 hone)
    obtain ⟨fuel, rfl⟩ : ∃ n, fuel = n + 1 := ⟨fuel - 1, by omega⟩
    rw [cons_mem_minLanguage_small (by omega) hone (by omega), mem_digitStrings]
    exact .inl ⟨Nat.le_refl _, by omega, digits_replicate _ rfl, Nat.le_refl _, by
      rw [List.length_replicate]
      omega⟩
  · have hgt : 9 < v := Nat.lt_of_not_le hone
    obtain ⟨c, ds, htext, hne, hc, hc', hds⟩ := decimalText_eq_cons hgt
    have hlead : Leading c ds := ⟨hc, hc', hds, hne⟩
    by_cases hc1 : c = 49
    · subst hc1
      have hsame : minLanguage fuel v dl false = minLanguage fuel v dl true := by
        obtain rfl : Parser.decimal (49 :: ds) = v := by
          rw [← htext, decimal_decimalText]
        exact minLanguage_one hlead (by omega) (by omega)
      rw [hsame, minLanguage_top_iff hfuel (by omega), SteepFromOne, htext]
      exact ⟨fun h => ⟨hgt, rfl, h⟩, fun h => h.2.2⟩
    · refine iff_of_false (hwrong (k := ds.length + 1) (Nat.succ_pos _) ?_) fun h => hc1 ?_
      · obtain ⟨fuel, rfl⟩ : ∃ n, fuel = n + 1 := ⟨fuel - 1, by omega⟩
        rw [htext, List.length_cons] at hdl
        obtain rfl : Parser.decimal (c :: ds) = v := by
          rw [← htext, decimal_decimalText]
        rw [cons_mem_minLanguage hlead (by omega), mem_digitStrings, List.length_replicate]
        exact .inl ⟨by omega, Nat.le_refl _, by omega, digits_replicate _ rfl, Nat.le_refl _,
          by omega⟩
      · rw [SteepFromOne, htext] at h
        exact h.2.1

end ActQuant.Grammar
