import ActQuant.Grammar.Session
import ActQuant.Lib.Chars
import Mathlib.Tactic.IntervalCases

namespace ActQuant.Grammar
open ActQuant.Lib

/-! A text may be cut anywhere: its pieces are decoded as the whole of it. -/

/-- How many bytes the first byte of a sequence announces behind it. -/
def announced (b : Nat) : Nat := sequenceLengths.getD (b / 16) 0 - 1

/-- One byte behind a sequence of which `n` bytes are missing. -/
def readByte (value n b : Nat) : Nat × Nat :=
  if n = 0 then (b % 2 ^ (7 - announced b), announced b)
  else ((value * 64 + b % 64) % 2 ^ 32, n - 1)

/-- The code points that end in a text, with the sequence that is unfinished behind it. -/
def readBytes : Nat → Nat → Text → List Nat × Nat × Nat
  | value, n, [] => ([], value, n)
  | value, n, b :: bs =>
    let s := readByte value n b
    let r := readBytes s.1 s.2 bs
    (if s.2 = 0 then s.1 :: r.1 else r.1, r.2)

/-- Each byte can stand where it stands, and none of them is zero. -/
def Fits : Nat → Text → Prop
  | _, [] => True
  | 0, b :: bs => b ≠ 0 ∧ sequenceLengths.getD (b / 16) 0 ≠ 0 ∧ Fits (announced b) bs
  | n + 1, b :: bs => b / 64 = 2 ∧ Fits n bs

theorem readBytes_append (value n : Nat) (bs cs : Text) :
    readBytes value n (bs ++ cs) =
      ((readBytes value n bs).1 ++
          (readBytes (readBytes value n bs).2.1 (readBytes value n bs).2.2 cs).1,
        (readBytes (readBytes value n bs).2.1 (readBytes value n bs).2.2 cs).2) := by
  induction bs generalizing value n with
  | nil => rfl
  | cons b bs ih =>
    rw [List.cons_append, readBytes, readBytes, ih]
    split <;> rfl

theorem fits_append (value n : Nat) (bs cs : Text) :
    Fits n (bs ++ cs) ↔ Fits n bs ∧ Fits (readBytes value n bs).2.2 cs := by
  induction bs generalizing value n with
  | nil => exact ⟨fun h => ⟨trivial, h⟩, fun h => h.2⟩
  | cons b bs ih =>
    cases n with
    | zero =>
      rw [List.cons_append, Fits, Fits, ih (readByte value 0 b).1, and_assoc, and_assoc]
      rfl
    | succ n =>
      rw [List.cons_append, Fits, Fits, ih (readByte value (n + 1) b).1, and_assoc]
      rfl

/-- A loop over the bytes behind a first one ends with the text or with the sequence. -/
theorem decodeTail_fits (value : Nat) (h : Fits n bs) :
    ∃ value' n' rest, decodeTail n value bs = (value', n', rest) ∧ (n' = 0 ∨ rest = []) ∧
      rest.length ≤ bs.length ∧ Fits n' rest ∧
      readBytes value n bs =
        ((if 0 < n ∧ n' = 0 then [value'] else []) ++ (readBytes value' n' rest).1,
          (readBytes value' n' rest).2) := by
  induction n generalizing value bs with
  | zero => exact ⟨value, 0, bs, rfl, .inl rfl, le_rfl, h, rfl⟩
  | succ n ih =>
    cases bs with
    | nil => exact ⟨value, n + 1, [], rfl, .inr rfl, le_rfl, h, rfl⟩
    | cons b bs =>
      obtain ⟨hb, hbs⟩ := h
      have hne : b ≠ 0 := by
        rintro rfl
        omega
      obtain ⟨value', n', rest, heq, hend, hlen, hfit, hread⟩ :=
        ih ((value * 64 + b % 64) % 2 ^ 32) hbs
      refine ⟨value', n', rest, ?_, hend, hlen.trans (Nat.le_succ _), hfit, ?_⟩
      · rw [decodeTail, peek, List.headD_cons, if_neg hne]
        exact heq
      · rw [readBytes, readByte, if_neg (Nat.succ_ne_zero n), Nat.add_sub_cancel, hread]
        by_cases hn : n = 0
        · subst hn
          rw [decodeTail] at heq
          cases heq
          rfl
        · rw [if_neg hn]
          congr 2
          simp only [Nat.pos_of_ne_zero hn, Nat.succ_pos, true_and]

/-- Where the bytes fit, the loop that checks them does what the other one does. -/
theorem decodeContinued_fits (value : Nat) (h : Fits n bs) :
    decodeContinued n value bs = some (decodeTail n value bs) := by
  induction n generalizing value bs with
  | zero => rfl
  | succ n ih =>
    cases bs with
    | nil => rfl
    | cons b bs =>
      obtain ⟨hb, hbs⟩ := h
      have hne : b ≠ 0 := by
        rintro rfl
        omega
      rw [decodeContinued, decodeTail, peek, List.headD_cons, if_neg hne, if_neg hne,
        if_neg (not_not.2 hb)]
      exact ih _ hbs

theorem decodeSequences_fits (codePoints : List Nat) (value : Nat) (h : Fits n bs)
    (hn : n = 0 ∨ bs = []) (hlen : bs.length ≤ fuel) :
    decodeSequences fuel codePoints value n bs =
      (codePoints ++ (readBytes value n bs).1 ++ [0],
        ⟨(readBytes value n bs).2.1, (readBytes value n bs).2.2⟩) := by
  induction fuel generalizing codePoints value n bs with
  | zero =>
    obtain rfl : bs = [] := List.length_eq_zero_iff.1 (Nat.le_zero.1 hlen)
    rw [decodeSequences, readBytes, List.append_nil]
  | succ fuel ih =>
    cases bs with
    | nil => rw [decodeSequences, peek, List.headD_nil, if_pos rfl, readBytes, List.append_nil]
    | cons b bs =>
      obtain rfl : n = 0 := hn.resolve_right (List.cons_ne_nil _ _)
      obtain ⟨hb, hlead, hbs⟩ := h
      obtain ⟨m, hm⟩ : ∃ m, sequenceLengths.getD (b / 16) 0 = m + 1 :=
        Nat.exists_eq_succ_of_ne_zero hlead
      have hannounced : announced b = m := by
        rw [announced, hm, Nat.add_sub_cancel]
      rw [hannounced] at hbs
      obtain ⟨value', n', rest, heq, hend, hrest, hfit, hread⟩ :=
        decodeTail_fits (b % 2 ^ (7 - m)) hbs
      have hstep : readBytes value 0 (b :: bs) =
          ((if n' = 0 then [value'] else []) ++ (readBytes value' n' rest).1,
            (readBytes value' n' rest).2) := by
        rw [readBytes, readByte, if_pos rfl, hannounced, hread]
        by_cases hm0 : m = 0
        · subst hm0
          rw [decodeTail] at heq
          cases heq
          rfl
        · rw [if_neg hm0]
          congr 2
          simp only [Nat.pos_of_ne_zero hm0, true_and]
      rw [decodeSequences, peek, List.headD_cons, if_neg hb, hstep]
      simp only [hm, List.tail_cons, Nat.and_two_pow_sub_one_eq_mod, heq]
      rw [ih _ _ hfit hend (hrest.trans (Nat.le_of_succ_le_succ hlen))]
      congr 1
      split
      · rw [List.append_assoc, List.append_assoc, List.append_assoc, List.append_assoc]
      · rw [List.nil_append]

/-- `decode_utf8` of a piece that fits behind what is unfinished. -/
theorem decodePiece_fits (value : Nat) (h : Fits n bs) :
    decodePiece bs ⟨value, n⟩ = ((readBytes value n bs).1 ++ [0],
      ⟨(readBytes value n bs).2.1, (readBytes value n bs).2.2⟩) := by
  obtain ⟨value', n', rest, heq, hend, hlen, hfit, hread⟩ := decodeTail_fits value h
  have hleft : (if 0 < n then (n' : Int) else n) = n' := by
    split
    case isTrue => rfl
    case isFalse hn =>
      obtain rfl : n = 0 := by omega
      rw [decodeTail] at heq
      cases heq
      rfl
  rw [decodePiece, Int.toNat_natCast, decodeContinued_fits value h, heq]
  simp only [Int.natCast_pos, hleft]
  rw [decodeSequences_fits _ _ hfit hend hlen, hread]

/-- The pieces of a text decoded one after the other, without the zeros that end them. -/
def decodePieces : List Text → PartialUtf8 → List Nat × PartialUtf8
  | [], p => ([], p)
  | piece :: pieces, p =>
    let d := decodePiece piece p
    let r := decodePieces pieces d.2
    (d.1.dropLast ++ r.1, r.2)

theorem decodePieces_fits {pieces : List Text} (value : Nat) (h : Fits n pieces.flatten) :
    decodePieces pieces ⟨value, n⟩ = ((readBytes value n pieces.flatten).1,
      ⟨(readBytes value n pieces.flatten).2.1, (readBytes value n pieces.flatten).2.2⟩) := by
  induction pieces generalizing value n with
  | nil => rfl
  | cons piece pieces ih =>
    rw [List.flatten_cons, fits_append value] at h
    rw [decodePieces, decodePiece_fits value h.1, List.flatten_cons, readBytes_append]
    simp only [ih _ h.2, List.dropLast_concat]

/-! ### Characters -/

/-- The first bytes of a sequence behind its first one. -/
theorem readBytes_tailBytes (hc : c < 2 ^ 21) (hk : k ≤ n) :
    readBytes (c / 64 ^ n) n ((tailBytes n c).take k) =
      (if 0 < n ∧ k = n then [c] else [], c / 64 ^ (n - k), n - k) := by
  induction n generalizing k with
  | zero =>
    obtain rfl : k = 0 := Nat.le_zero.1 hk
    rfl
  | succ n ih =>
    cases k with
    | zero => rfl
    | succ k =>
      have hk' : k ≤ n := Nat.le_of_succ_le_succ hk
      have hdiv : c / 64 ^ (n + 1) = c / 64 ^ n / 64 := by
        rw [Nat.pow_succ, Nat.div_div_eq_div_mul]
      have hle : c / 64 ^ n ≤ c := Nat.div_le_self _ _
      have hvalue : (c / 64 ^ (n + 1) * 64 + (0x80 + c / 64 ^ n % 64) % 64) % 2 ^ 32 =
          c / 64 ^ n := by
        rw [hdiv]
        omega
      rw [tailBytes, List.take_succ_cons, readBytes, readByte, if_neg (Nat.succ_ne_zero n),
        Nat.add_sub_cancel, hvalue, ih hk']
      cases n with
      | zero =>
        obtain rfl : k = 0 := Nat.le_zero.1 hk'
        simp
      | succ n => simp

theorem fits_tailBytes (n c : Nat) : Fits n (tailBytes n c) := by
  induction n with
  | zero => trivial
  | succ n ih =>
    refine ⟨?_, ih⟩
    omega

/-- The first byte of a code point tells how many more there are, and has its highest bits. -/
theorem leadByte_spec (hc : c < 2 ^ 21) :
    sequenceLengths.getD (leadByte (extraBytes c) c / 16) 0 = extraBytes c + 1 ∧
      leadByte (extraBytes c) c % 2 ^ (7 - extraBytes c) = c / 64 ^ extraBytes c := by
  have hget (i q : Nat) (h : i / 16 = q) :
      sequenceLengths.getD (i / 16) 0 = sequenceLengths.getD q 0 := by rw [h]
  unfold extraBytes
  split_ifs with h₁ h₂ h₃ <;> simp only [leadByte] <;> simp
  · refine ⟨?_, by omega⟩
    have hq : c / 16 < 8 := by omega
    interval_cases c / 16 <;> rfl
  · refine ⟨?_, by omega⟩
    have hq : (192 + c / 64) / 16 = 12 ∨ (192 + c / 64) / 16 = 13 := by omega
    rcases hq with hq | hq <;> rw [hq] <;> rfl
  · refine ⟨?_, by omega⟩
    have hq : (224 + c / 4096) / 16 = 14 := by omega
    rw [hq]
    rfl
  · refine ⟨?_, by omega⟩
    have hq : (240 + c / 262144) / 16 = 15 := by omega
    rw [hq]
    rfl

theorem announced_leadByte (hc : c < 2 ^ 21) :
    announced (leadByte (extraBytes c) c) = extraBytes c := by
  rw [announced, (leadByte_spec hc).1, Nat.add_sub_cancel]

theorem fits_utf8Bytes (h₀ : c ≠ 0) (hc : c < 2 ^ 21) : Fits 0 (utf8Bytes c) := by
  have hlead : leadByte (extraBytes c) c ≠ 0 := by
    unfold extraBytes
    split_ifs <;> simp [leadByte]
    exact h₀
  refine ⟨hlead, ?_, ?_⟩
  · rw [(leadByte_spec hc).1]
    exact Nat.succ_ne_zero _
  · rw [announced_leadByte hc]
    exact fits_tailBytes _ c

/-- The state behind the first byte and `k` more of a code point. -/
theorem readBytes_take (value : Nat) (hc : c < 2 ^ 21) (hk : k ≤ extraBytes c) :
    readBytes value 0 ((utf8Bytes c).take (k + 1)) =
      (if k = extraBytes c then [c] else [], c / 64 ^ (extraBytes c - k), extraBytes c - k) := by
  rw [utf8Bytes, List.take_succ_cons, readBytes, readByte, if_pos rfl, announced_leadByte hc,
    (leadByte_spec hc).2, readBytes_tailBytes hc hk]
  by_cases h : extraBytes c = 0
  · have hk₀ : k = 0 := by omega
    simp [h, hk₀]
  · simp [h, Nat.pos_of_ne_zero h]

theorem readBytes_utf8Bytes (value : Nat) (hc : c < 2 ^ 21) :
    readBytes value 0 (utf8Bytes c) = ([c], c, 0) := by
  have hall : (utf8Bytes c).take (extraBytes c + 1) = utf8Bytes c := by
    rw [utf8Bytes, List.take_succ_cons,
      List.take_of_length_le (length_tailBytes (extraBytes c) c).le]
  rw [← hall, readBytes_take value hc le_rfl, if_pos rfl, Nat.sub_self, Nat.pow_zero, Nat.div_one]

/-- The bytes of a string. -/
def textOf (s : List Char) : Text := (encodeUtf8 s).map UInt8.toNat

theorem textOf_cons (ch : Char) (s : List Char) :
    textOf (ch :: s) = utf8Bytes ch.toNat ++ textOf s := by
  rw [textOf, encodeUtf8, List.flatMap_cons, List.map_append, utf8Bytes_char]
  rfl

theorem textOf_append (cs ds : List Char) : textOf (cs ++ ds) = textOf cs ++ textOf ds := by
  rw [textOf, encodeUtf8, List.flatMap_append, List.map_append]
  rfl

theorem char_lt (ch : Char) : ch.toNat < 2 ^ 21 := by
  have hval : ch.toNat = ch.val.toNat := rfl
  rcases ch.valid with h | h <;> omega

theorem fits_textOf (h : ∀ ch ∈ s, ch.toNat ≠ 0) : Fits 0 (textOf s) := by
  induction s with
  | nil => trivial
  | cons ch s ih =>
    obtain ⟨hch, hs⟩ := List.forall_mem_cons.1 h
    rw [textOf_cons, fits_append 0, readBytes_utf8Bytes 0 (char_lt ch)]
    exact ⟨fits_utf8Bytes hch (char_lt ch), ih hs⟩

theorem readBytes_textOf (value : Nat) (s : List Char) :
    (readBytes value 0 (textOf s)).1 = s.map Char.toNat ∧
      (readBytes value 0 (textOf s)).2.2 = 0 := by
  induction s generalizing value with
  | nil => exact ⟨rfl, rfl⟩
  | cons ch s ih =>
    rw [textOf_cons, readBytes_append, readBytes_utf8Bytes value (char_lt ch)]
    obtain ⟨hcodes, hend⟩ := ih ch.toNat
    exact ⟨congrArg (ch.toNat :: ·) hcodes, hend⟩

/-- A string without zeros is decoded the same wherever it is cut, and so is the beginning of a
character. -/
theorem decodePieces_correct :
    (∀ s : List Char, (∀ ch ∈ s, ch.toNat ≠ 0) → ∀ pieces : List Text, pieces.flatten = textOf s →
      ∀ value, (decodePieces pieces ⟨value, 0⟩).1 = s.map Char.toNat ∧
        (decodePieces pieces ⟨value, 0⟩).2.nRemain = 0) ∧
    (∀ ch : Char, ch.toNat ≠ 0 → ∀ bs : Text, bs <+: textOf [ch] → bs ≠ textOf [ch] →
      ∀ pieces : List Text, pieces.flatten = bs → ∀ value,
        (decodePieces pieces ⟨value, 0⟩).2 = (decodePiece bs ⟨value, 0⟩).2) := by
  constructor
  · intro s hs pieces hpieces value
    have hfits : Fits 0 pieces.flatten := hpieces ▸ fits_textOf hs
    have hread := readBytes_textOf value s
    have hdecoded := decodePieces_fits value hfits
    rw [Nat.cast_zero, hpieces] at hdecoded
    rw [hdecoded]
    exact ⟨hread.1, congrArg (Nat.cast : Nat → Int) hread.2⟩
  · intro ch hch bs hbs _ pieces hpieces value
    obtain ⟨rest, hrest⟩ := hbs
    have hwhole : Fits 0 (bs ++ rest) :=
      hrest ▸ fits_textOf (s := [ch]) (List.forall_mem_singleton.2 hch)
    have hfits : Fits 0 bs := ((fits_append 0 0 bs rest).1 hwhole).1
    have hpieces' := decodePieces_fits value (hpieces ▸ hfits : Fits 0 pieces.flatten)
    have hpiece := decodePiece_fits value hfits
    rw [Nat.cast_zero] at hpieces' hpiece
    rw [hpieces', hpiece, hpieces]

/-- The two bytes of `é` in two pieces with an empty one between them. -/
theorem decodePieces_correct_cut :
    (decodePieces [[0xC3], [], [0xA9]] ⟨0, 0⟩).1 = [0xE9] ∧
      (decodePieces [[0xC3], []] ⟨0, 0⟩).2 = ⟨3, 1⟩ := by
  have hwhole := decodePieces_correct.1 ['é'] (List.forall_mem_singleton.2 (by decide))
    [[0xC3], [], [0xA9]] (by decide) 0
  have hfront := decodePieces_correct.2 'é' (by decide) [0xC3] (by decide) (by decide)
    [[0xC3], []] rfl 0
  exact ⟨hwhole.1, hfront⟩

end ActQuant.Grammar
