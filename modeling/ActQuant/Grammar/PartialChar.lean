import ActQuant.Grammar.Utf8Pieces

namespace ActQuant.Grammar
open ActQuant.Lib

/-! What the unfinished end of a text can still become. -/

/-- The code points that an unfinished sequence is the beginning of. -/
def Completes (p : PartialUtf8) (c : Nat) : Prop :=
  c < 2 ^ 21 ∧ ∃ bs rest, bs ≠ [] ∧ rest ≠ [] ∧ utf8Bytes c = bs ++ rest ∧
    (decodePiece bs ⟨0, 0⟩).2 = p

theorem Completes.state (h : Completes p c) :
    ∃ n, 0 < n ∧ n ≤ extraBytes c ∧ p = ⟨c / 64 ^ n, n⟩ := by
  obtain ⟨hc, bs, rest, hbs, hrest, heq, hp⟩ := h
  have hlen : bs.length + rest.length = extraBytes c + 1 := by
    have hall := congrArg List.length heq
    rw [utf8Bytes, List.length_cons, length_tailBytes, List.length_append] at hall
    exact hall.symm
  have hpos := List.length_pos_iff.2 hbs
  have hrestPos := List.length_pos_iff.2 hrest
  obtain ⟨k, hk⟩ : ∃ k, bs.length = k + 1 := ⟨bs.length - 1, by omega⟩
  have htake : bs = (utf8Bytes c).take (k + 1) := by
    rw [heq, ← hk, List.take_left]
  have h₀ : c ≠ 0 := by
    rintro rfl
    simp [extraBytes] at hlen
    omega
  have hfits : Fits 0 bs := by
    have hwhole := fits_utf8Bytes h₀ hc
    rw [heq] at hwhole
    exact ((fits_append 0 0 bs rest).1 hwhole).1
  have hpiece := decodePiece_fits 0 hfits
  rw [Nat.cast_zero] at hpiece
  rw [hpiece, htake, readBytes_take 0 hc (by omega)] at hp
  exact ⟨extraBytes c - k, by omega, Nat.sub_le _ _, hp.symm⟩

/-- The smallest number with the bits of an unfinished sequence that is not overlong. -/
def lowest (p : PartialUtf8) : Nat :=
  if p.value = 0 then if p.nRemain = 2 then 1 <<< 11 else if p.nRemain = 3 then 1 <<< 16 else 0
  else p.value * 64 ^ p.nRemain.toNat

/-- The largest number with the bits of an unfinished sequence. -/
def highest (p : PartialUtf8) : Nat :=
  p.value * 64 ^ p.nRemain.toNat + (64 ^ p.nRemain.toNat - 1)

theorem Completes.between (h : Completes p c) : lowest p ≤ c ∧ c ≤ highest p := by
  obtain ⟨n, hn, hle, rfl⟩ := h.state
  have h3 := extraBytes_le c
  have hextra : extraBytes c = if c < 0x80 then 0 else if c < 0x800 then 1 else
    if c < 0x10000 then 2 else 3 := rfl
  have hcases : n = 1 ∨ n = 2 ∨ n = 3 := by omega
  rw [lowest, highest, Int.toNat_natCast]
  dsimp only
  rcases hcases with rfl | rfl | rfl <;> norm_num <;> split_ifs at * <;> omega

/-- A range of the class a sequence of elements starts with meets the numbers from `low` to
`high`. -/
inductive Touched (low high : Nat) : List Element → Prop where
  | range (h : hi.type = .CHAR_RNG_UPPER) (hlo : lo.value ≤ high) (hhi : low ≤ hi.value) :
      Touched low high (lo :: hi :: es)
  | any (h : (head es).type ≠ .CHAR_RNG_UPPER) (he : e.type = .CHAR_ANY) :
      Touched low high (e :: es)
  | exact (h : (head es).type ≠ .CHAR_RNG_UPPER) (hlo : low ≤ e.value) (hhi : e.value ≤ high) :
      Touched low high (e :: es)
  | behindRange (h : hi.type = .CHAR_RNG_UPPER) (halt : e.type = .CHAR_ALT)
      (hin : Touched low high (e :: es)) : Touched low high (lo :: hi :: e :: es)
  | behind (halt : e'.type = .CHAR_ALT) (hin : Touched low high (e' :: es)) :
      Touched low high (e :: e' :: es)

theorem touched_nil : ¬ Touched low high [] := by
  intro h
  cases h

theorem touched_range (h : hi.type = .CHAR_RNG_UPPER) : Touched low high (lo :: hi :: es) ↔
    (lo.value ≤ high ∧ low ≤ hi.value) ∨ ((head es).type = .CHAR_ALT ∧ Touched low high es) := by
  constructor
  · intro hl
    cases hl with
    | range _ hlo hhi => exact .inl ⟨hlo, hhi⟩
    | any h' | exact h' => exact absurd h h'
    | behindRange _ halt hin => exact .inr ⟨halt, hin⟩
    | behind halt => cases h.symm.trans halt
  · rintro (⟨hlo, hhi⟩ | ⟨halt, hin⟩)
    · exact .range h hlo hhi
    · cases es with
      | nil => exact absurd hin touched_nil
      | cons e es => exact .behindRange h halt hin

theorem touched_single (h : (head es).type ≠ .CHAR_RNG_UPPER) : Touched low high (e :: es) ↔
    (e.type = .CHAR_ANY ∨ low ≤ e.value ∧ e.value ≤ high) ∨
      ((head es).type = .CHAR_ALT ∧ Touched low high es) := by
  constructor
  · intro hl
    cases hl with
    | range h' | behindRange h' => exact absurd h' h
    | any _ he => exact .inl (.inl he)
    | exact _ hlo hhi => exact .inl (.inr ⟨hlo, hhi⟩)
    | behind halt hin => exact .inr ⟨halt, hin⟩
  · rintro ((he | ⟨hlo, hhi⟩) | ⟨halt, hin⟩)
    · exact .any h he
    · exact .exact h hlo hhi
    · cases es with
      | nil => exact absurd hin touched_nil
      | cons e' es => exact .behind halt hin

theorem Touched.of_listed (h : Listed c es) (hlo : low ≤ c) (hhi : c ≤ high) :
    Touched low high es := by
  induction h with
  | range h hle hle' => exact .range h (hle.trans hhi) (hlo.trans hle')
  | any h he => exact .any h he
  | exact h he => exact .exact h (he ▸ hlo) (he ▸ hhi)
  | behindRange h halt _ ih => exact .behindRange h halt ih
  | behind halt _ ih => exact .behind halt ih

/-- The loop returns at the first range that is met. -/
theorem matchPartialLoop_eq (low high : Nat) (positive : Bool) (es : List Element)
    (hany : (head es).type = .CHAR_ANY → positive = true) :
    matchPartialLoop low high positive es = true ↔ (Touched low high es ↔ positive = true) := by
  induction es using matchPartialLoop.induct low high with
  | case1 => simp [matchPartialLoop, touched_nil]
  | case2 e he =>
    have hend : (head []).type ≠ .CHAR_RNG_UPPER := by decide
    have hpos := hany he
    simp [matchPartialLoop, touched_single hend, he, hpos]
  | case3 e he hin =>
    have hend : (head []).type ≠ .CHAR_RNG_UPPER := by decide
    simp [matchPartialLoop, touched_single hend, he, hin]
  | case4 e he hin =>
    have hend : (head []).type ≠ .CHAR_RNG_UPPER := by decide
    have halt : (head []).type ≠ .CHAR_ALT := by decide
    simp only [matchPartialLoop, touched_single hend, he, hin, halt, if_false]
    simp
  | case5 e next es hnext hmeet =>
    rw [matchPartialLoop, if_pos hnext, if_pos hmeet, touched_range hnext]
    simp [hmeet]
  | case6 e next es hnext hmeet halt ih =>
    rw [matchPartialLoop, if_pos hnext, if_neg hmeet, if_pos halt, touched_range hnext,
      ih (fun h => by cases halt.symm.trans h)]
    simp only [hmeet, halt, false_or, true_and]
  | case7 e next es hnext hmeet halt =>
    rw [matchPartialLoop, if_pos hnext, if_neg hmeet, if_neg halt, touched_range hnext]
    simp [hmeet, halt]
  | case8 e next es hnext he =>
    have hhead : (head (next :: es)).type ≠ .CHAR_RNG_UPPER := hnext
    have hpos := hany he
    rw [matchPartialLoop, if_neg hnext, if_pos he, touched_single hhead]
    simp [he, hpos]
  | case9 e next es hnext he hin =>
    have hhead : (head (next :: es)).type ≠ .CHAR_RNG_UPPER := hnext
    rw [matchPartialLoop, if_neg hnext, if_neg he, if_pos hin, touched_single hhead]
    simp [hin]
  | case10 e next es hnext he hin halt ih =>
    have hhead : (head (next :: es)).type ≠ .CHAR_RNG_UPPER := hnext
    rw [matchPartialLoop, if_neg hnext, if_neg he, if_neg hin, if_pos halt, touched_single hhead,
      ih (fun h => by cases halt.symm.trans h)]
    simp only [he, hin, head_cons, halt, false_or, true_and]
  | case11 e next es hnext he hin halt =>
    have hhead : (head (next :: es)).type ≠ .CHAR_RNG_UPPER := hnext
    rw [matchPartialLoop, if_neg hnext, if_neg he, if_neg hin, if_neg halt, touched_single hhead]
    simp [he, hin, halt]

/-- The bounds the code computes. -/
theorem Completes.bounds (h : Completes p c) :
    ¬ (p.nRemain < 0 ∨ (p.nRemain = 1 ∧ p.value < 2)) ∧
      (p.value <<< (p.nRemain.toNat * 6)) % 2 ^ 32 = p.value * 64 ^ p.nRemain.toNat ∧
      (p.value * 64 ^ p.nRemain.toNat ||| (2 ^ (p.nRemain.toNat * 6) - 1)) = highest p ∧
      (if p.value * 64 ^ p.nRemain.toNat = 0 then
        if p.nRemain = 2 then 1 <<< 11 else if p.nRemain = 3 then 1 <<< 16
        else p.value * 64 ^ p.nRemain.toNat
        else p.value * 64 ^ p.nRemain.toNat) = lowest p := by
  have hc := h.1
  obtain ⟨n, hn, hle, rfl⟩ := h.state
  have hextra : extraBytes c = if c < 0x80 then 0 else if c < 0x800 then 1 else
    if c < 0x10000 then 2 else 3 := rfl
  have h64 : 2 ^ (n * 6) = 64 ^ n := by rw [Nat.mul_comm, Nat.pow_mul]
  have hpos : 0 < 64 ^ n := Nat.pow_pos (by decide)
  have hle' : c / 64 ^ n * 64 ^ n ≤ c := Nat.div_mul_le_self c _
  dsimp only
  rw [Int.toNat_natCast]
  refine ⟨?_, ?_, ?_, ?_⟩
  · rintro (hneg | ⟨hone, hlt⟩)
    · omega
    · obtain rfl : n = 1 := by exact_mod_cast hone
      rw [Nat.pow_one] at hlt
      split_ifs at hextra <;> omega
  · rw [Nat.shiftLeft_eq, h64]
    exact Nat.mod_eq_of_lt (by omega)
  · have hor := Nat.two_pow_add_eq_or_of_lt (i := n * 6) (b := 64 ^ n - 1) (by omega) (c / 64 ^ n)
    rw [h64] at hor ⊢
    rw [highest, Int.toNat_natCast, Nat.mul_comm, ← hor]
  · rw [lowest, Int.toNat_natCast]
    by_cases hv : c / 64 ^ n = 0
    · simp [hv]
    · have hne : c / 64 ^ n * 64 ^ n ≠ 0 := Nat.mul_ne_zero hv hpos.ne'
      rw [if_neg hne, if_neg hv]

/-- The element that starts a class and its characters: negated or not. -/
theorem matchPartialChar_touched (hp : Completes p c) (hes : isClass (head es)) :
    matchPartialChar es p = some true ↔
      (Touched (lowest p) (highest p) es ↔ (head es).type ≠ .CHAR_NOT) := by
  have hclass : ((head es).type = .CHAR ∨ (head es).type = .CHAR_ANY) ∨
      (head es).type = .CHAR_NOT := by
    simp only [isClass, decide_eq_true_eq] at hes
    tauto
  have hnot : ((head es).type = .CHAR ∨ (head es).type = .CHAR_ANY) ↔
      (head es).type ≠ .CHAR_NOT := by
    constructor
    · rintro (h | h) <;> rw [h] <;> decide
    · intro h
      exact hclass.resolve_right h
  obtain ⟨hvalid, hlow, hhigh, hlowest⟩ := hp.bounds
  rw [matchPartialChar, if_pos hclass, if_neg hvalid]
  dsimp only
  rw [hlow, hhigh, hlowest, Option.some.injEq, matchPartialLoop_eq]
  · rw [decide_eq_true_eq, hnot]
  · intro hany
    rw [decide_eq_true_eq]
    exact .inr hany

/-- `ok` says which code points count as valid. The answer is right for classes that are not
negated as soon as a code point of the class is between the bounds; for a negated class only if
all of them are listed. -/
theorem matchPartialChar_exact (ok : Nat → Prop) (es : List Element) (p : PartialUtf8)
    (hes : isClass (head es)) (hp : ∃ c, ok c ∧ Completes p c) :
    (matchPartialChar es p = some true ↔ ∃ c, ok c ∧ Completes p c ∧ InClass es c) ↔
      (Touched (lowest p) (highest p) es →
        if (head es).type = .CHAR_NOT then ∀ c, ok c → Completes p c → Listed c es
        else ∃ c, ok c ∧ Completes p c ∧ Listed c es) := by
  obtain ⟨c, hok, hc⟩ := hp
  rw [matchPartialChar_touched hc hes]
  by_cases hneg : (head es).type = .CHAR_NOT
  · simp only [InClass, hneg, if_true, ne_eq, not_true_eq_false, iff_false]
    constructor
    · intro h htouched c' hok' hc'
      by_contra hunlisted
      exact h.2 ⟨c', hok', hc', hunlisted⟩ htouched
    · intro h
      constructor
      · intro hfree
        refine ⟨c, hok, hc, fun hlisted => hfree ?_⟩
        exact .of_listed hlisted hc.between.1 hc.between.2
      · rintro ⟨c', hok', hc', hunlisted⟩ htouched
        exact hunlisted (h htouched c' hok' hc')
  · simp only [InClass, hneg, if_false, ne_eq, not_false_eq_true, iff_true]
    constructor
    · exact fun h => h.1
    · intro h
      refine ⟨h, ?_⟩
      rintro ⟨c', _, hc', hlisted⟩
      exact .of_listed hlisted hc'.between.1 hc'.between.2

/-- The first byte of `é` may still become a letter the class has. -/
theorem matchPartialChar_exact_single :
    matchPartialChar [⟨.CHAR, 0xE9⟩, ⟨.END, 0⟩] ⟨3, 1⟩ = some true ↔
      ∃ c, Nat.isValidChar c ∧ Completes ⟨3, 1⟩ c ∧ InClass [⟨.CHAR, 0xE9⟩, ⟨.END, 0⟩] c := by
  have hc : Nat.isValidChar 0xE9 ∧ Completes ⟨3, 1⟩ 0xE9 :=
    ⟨.inl (by decide), by decide, [0xC3], [0xA9], by decide, by decide, by decide, by decide⟩
  refine (matchPartialChar_exact Nat.isValidChar _ _ (by decide) ⟨_, hc⟩).2 fun _ => ?_
  exact ⟨0xE9, hc.1, hc.2, .exact (by decide) rfl⟩

/-- A negated class is refused although `è` is in it. -/
theorem matchPartialChar_refuses_negated :
    ¬ (matchPartialChar [⟨.CHAR_NOT, 0xE9⟩, ⟨.END, 0⟩] ⟨3, 1⟩ = some true ↔
      ∃ c, Nat.isValidChar c ∧ Completes ⟨3, 1⟩ c ∧
        InClass [⟨.CHAR_NOT, 0xE9⟩, ⟨.END, 0⟩] c) := by
  intro h
  have hfalse : matchPartialChar [⟨.CHAR_NOT, 0xE9⟩, ⟨.END, 0⟩] ⟨3, 1⟩ = some false := by decide
  have hunlisted : ¬ Listed 0xE8 [⟨.CHAR_NOT, 0xE9⟩, ⟨.END, 0⟩] := by
    rw [listed_single (by decide)]
    rintro ((h | h) | ⟨h, _⟩) <;> exact absurd h (by decide)
  have htrue := h.2 ⟨0xE8, .inl (by decide),
    ⟨by decide, [0xC3], [0xA8], by decide, by decide, by decide, by decide⟩, hunlisted⟩
  rw [hfalse] at htrue
  cases htrue

end ActQuant.Grammar
