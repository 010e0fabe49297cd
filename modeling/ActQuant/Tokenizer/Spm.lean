import ActQuant.Tokenizer.Symbols
import ActQuant.Lib.Dict

namespace ActQuant.Tokenizer
open ActQuant.Lib

/-- `llama_vocab::token_data`, with the byte attribute alone. -/
structure TokenData (Score : Type) where
  text : List UInt8
  score : Score
  isByte : Bool

/-- The tokens and the map back from their texts. -/
structure Vocab (Score : Type) where
  tokenToId : List UInt8 → Option Nat
  nTokens : Nat
  idToToken : Nat → TokenData Score

/-- The hexadecimal digits of `byte_to_token`. -/
def hexDigits : List UInt8 := [48, 49, 50, 51, 52, 53, 54, 55, 56, 57, 65, 66, 67, 68, 69, 70]

/-- How a byte token is spelled: `<0xXX>`. -/
def byteSpelling (ch : UInt8) : List UInt8 :=
  [60, 48, 120, hexDigits.getD (ch.toNat / 16) 0, hexDigits.getD (ch.toNat % 16) 0, 62]

/-- `byte_to_token`; `none` is the exception of a byte without a token. -/
def byteToToken (vocab : Vocab Score) (ch : UInt8) : Option Nat :=
  match vocab.tokenToId (byteSpelling ch) with
  | some token => some token
  | none => vocab.tokenToId [ch]

/-- `llm_bigram_spm`. -/
structure BigramSpm (Score : Type) where
  left : Nat
  right : Nat
  score : Score
  size : Nat

variable {Score : Type} [LinearOrder Score]

/-- `llm_bigram_spm::comparator`. -/
def comparatorSpm (l r : BigramSpm Score) : Bool :=
  l.score < r.score || (l.score == r.score && l.left > r.left)

abbrev RevMerge := Hashmap (List UInt8) (Nat × Nat)

/-- The text of two symbols: both lengths from where the left one starts. -/
def pairText (left right : Piece UInt8) : List UInt8 := left.text.take (left.n + right.n)

/-- What `try_add_bigram` puts into the queue for two symbols. -/
def bigramSpm (vocab : Vocab Score) (left right : Piece UInt8) (l r : Nat) :
    Option (BigramSpm Score) :=
  let text := pairText left right
  match vocab.tokenToId text with
  | none => none
  | some token =>
    if vocab.nTokens ≤ token then none
    else some ⟨l, r, (vocab.idToToken token).score, text.length⟩

/-- The merge of `llm_tokenizer_spm_session`: the queue of bigrams and `rev_merge`. -/
def spmScheme (vocab : Vocab Score) : Scheme UInt8 (BigramSpm Score) RevMerge where
  left := BigramSpm.left
  right := BigramSpm.right
  found := bigramSpm vocab
  note left right l r revMerge := revMerge.insert (pairText left right) (l, r)
  outdated left right bigram := left.n + right.n != bigram.size
  before x y := !comparatorSpm x y

/-- `resegment`; the bytes of a symbol without a token go out one by one. -/
def resegment (vocab : Vocab Score) (symbols : List (Symbol UInt8)) (revMerge : RevMerge) :
    Nat → Piece UInt8 → Option (List Nat)
  | 0, _ => none
  | fuel + 1, symbol =>
    let text := symbol.str
    match vocab.tokenToId text with
    | some token => some [token]
    | none =>
      match revMerge.find text with
      | none => text.mapM (byteToToken vocab)
      | some p => do
        let left ← resegment vocab symbols revMerge fuel (symbolAt symbols p.1).toPiece
        let right ← resegment vocab symbols revMerge fuel (symbolAt symbols p.2).toPiece
        return left ++ right

/-- `llm_tokenizer_spm_session::tokenize` up to its last loop. -/
def mergedSpm (vocab : Vocab Score) (text : List UInt8) :
    Option (Work UInt8 (BigramSpm Score) RevMerge) :=
  mergeSymbols (spmScheme vocab) ⟨symbolsOf text, [], Hashmap.empty⟩

/-- `llm_tokenizer_spm_session::tokenize`, for a text that is not empty. -/
def tokenizeSpm (vocab : Vocab Score) (text : List UInt8) : Option (List Nat) := do
  let session ← mergedSpm vocab text
  let places := walk session.symbols session.symbols.length 0
  let output ← places.mapM fun i =>
    resegment vocab session.symbols session.notes (session.symbols.length + 1)
      (symbolAt session.symbols i).toPiece
  return output.flatten

/-! ### The naive tokenizer -/

/-- Pairs that make a token, the higher score first. -/
def scoreRank (vocab : Vocab Score) (a b : List UInt8) : Option (OrderDual Score) :=
  match vocab.tokenToId (a ++ b) with
  | none => none
  | some token =>
    if vocab.nTokens ≤ token then none
    else some (OrderDual.toDual (vocab.idToToken token).score)

/-- What is left of the characters when no two neighbours make a token. -/
def segmentsSpm (vocab : Vocab Score) (text : List UInt8) : List (List UInt8) :=
  greedyMerge (scoreRank vocab) (charsOf text)

/-- The token of a segment, or the tokens of its bytes. -/
def tokensOf (vocab : Vocab Score) (segment : List UInt8) : Option (List Nat) :=
  match vocab.tokenToId segment with
  | some token => some [token]
  | none => segment.mapM (byteToToken vocab)

def naiveSpm (vocab : Vocab Score) (text : List UInt8) : Option (List Nat) :=
  ((segmentsSpm vocab text).mapM (tokensOf vocab)).map List.flatten

/-! ### The queue of the session -/

omit [LinearOrder Score] in
theorem bigramSpm_eq_some {vocab : Vocab Score} (h : bigramSpm vocab left right l r = some e) :
    ∃ token, vocab.tokenToId (pairText left right) = some token ∧ token < vocab.nTokens ∧
      e = ⟨l, r, (vocab.idToToken token).score, (pairText left right).length⟩ := by
  rw [bigramSpm] at h
  split at h
  · cases h
  · rename_i token htoken
    split at h
    · cases h
    · rename_i hlt
      cases h
      exact ⟨token, htoken, Nat.not_le.1 hlt, rfl⟩

theorem pairText_eq {left right : Piece UInt8} (h : right.text = left.text.drop left.n) :
    pairText left right = left.str ++ right.str := by
  rw [pairText, Piece.str, Piece.str, h]
  exact List.take_add

theorem lawful_spmScheme (vocab : Vocab Score) :
    (spmScheme vocab).Lawful (fun e => OrderDual.toDual e.score) (scoreRank vocab) where
  left_eq h := by
    obtain ⟨_, _, _, rfl⟩ := bigramSpm_eq_some h
    rfl
  right_eq h := by
    obtain ⟨_, _, _, rfl⟩ := bigramSpm_eq_some h
    rfl
  rank_eq h := by
    rw [spmScheme, scoreRank, ← pairText_eq h]
    dsimp only
    rw [bigramSpm]
    split
    · rfl
    · split <;> rfl
  outdated_eq := by
    intro i j e l r l' r' h hr hl' hr' hll hl hrr hrlen
    obtain ⟨_, _, _, rfl⟩ := bigramSpm_eq_some h
    have hsize : (pairText l r).length = l.n + r.n := by
      rw [hr, List.length_drop] at hrlen
      rw [pairText, List.length_take]
      omega
    change (l'.n + r'.n != (pairText l r).length) = false ↔ _
    rw [hsize, bne_eq_false_iff_eq]
    omega
  before_iff := by
    intro e e'
    change (!comparatorSpm e e') = true ↔ _
    rw [comparatorSpm, Bool.not_eq_true', Bool.or_eq_false_iff, decide_eq_false_iff_not, not_lt,
      OrderDual.toDual_lt_toDual, OrderDual.toDual_inj]
    rcases lt_trichotomy e.score e'.score with hlt | heq | hlt
    · exact iff_of_false (fun h => absurd h.1 (not_le.2 hlt))
        (fun h => h.elim (lt_asymm hlt) fun h => absurd h.1 (ne_of_lt hlt))
    · rw [heq, beq_self_eq_true, Bool.true_and, decide_eq_false_iff_not]
      constructor
      · intro h
        exact .inr ⟨rfl, Nat.not_lt.1 h.2⟩
      · rintro (h | h)
        · exact absurd h (lt_irrefl _)
        · exact ⟨le_refl _, Nat.not_lt.2 h.2⟩
    · rw [beq_false_of_ne (ne_of_gt hlt), Bool.false_and]
      exact iff_of_true ⟨le_of_lt hlt, rfl⟩ (.inl hlt)

/-! ### Tokens -/

omit [LinearOrder Score] in
/-- `rev_merge` only knows texts that are tokens, so nothing is ever taken apart again. -/
theorem resegment_eq {vocab : Vocab Score} {revMerge : RevMerge}
    (h : ∀ s p, revMerge.find s = some p → vocab.tokenToId s ≠ none)
    (symbols : List (Symbol UInt8)) (fuel : Nat) (symbol : Piece UInt8) :
    resegment vocab symbols revMerge (fuel + 1) symbol = tokensOf vocab symbol.str := by
  rw [resegment, tokensOf]
  cases htoken : vocab.tokenToId symbol.str with
  | some token => rfl
  | none =>
    cases hfind : revMerge.find symbol.str with
    | none => rfl
    | some p => exact absurd htoken (h _ p hfind)

theorem mergedSpm_revMerge {vocab : Vocab Score} (h : mergedSpm vocab text = some session) :
    ∀ s p, session.notes.find s = some p → vocab.tokenToId s ≠ none := by
  refine mergeSymbols_notes (N := fun m => ∀ s p, m.find s = some p → vocab.tokenToId s ≠ none)
    ?_ ?_ h
  · intro l r i j e notes he hnotes s p hp
    obtain ⟨token, htoken, _, _⟩ := bigramSpm_eq_some he
    rw [spmScheme] at hp
    dsimp only at hp
    rw [Hashmap.find_insert] at hp
    split at hp
    case isTrue hs =>
      rw [hs, htoken]
      exact Option.some_ne_none _
    case isFalse => exact hnotes s p hp
  · intro s p hp
    cases hp

/-- The merge ends, and the symbols that are gone through have the texts the naive tokenizer is left
with. -/
theorem mergedSpm_segments (vocab : Vocab Score) (h : text ≠ []) :
    ∃ session, mergedSpm vocab text = some session ∧
      (walk session.symbols session.symbols.length 0).map
          (fun i => (symbolAt session.symbols i).str) = segmentsSpm vocab text := by
  obtain ⟨session, live, hsession, hchain, hpieces, hhead, hlen⟩ :=
    mergeSymbols_greedy (lawful_spmScheme vocab) (chain_symbolsOf text)
      (w := ⟨symbolsOf text, [], Hashmap.empty⟩) rfl
  refine ⟨session, hsession, ?_⟩
  have hstart : nextOf live = 0 := by
    obtain ⟨s, rest, hs⟩ := List.exists_cons_of_ne_nil (symbolsOf_ne_nil h)
    rw [hs, List.length_cons, List.range_succ_eq_map] at hhead
    cases live with
    | nil => cases hhead
    | cons i live =>
      cases hhead
      rfl
  have hwalk := walk_eq hchain.linked (length_live_le hchain)
  rw [hstart] at hwalk
  rw [hwalk]
  exact hpieces.trans (congrArg _ (pieces_symbolsOf text))

theorem tokenizeSpm_eq (vocab : Vocab Score) (h : text ≠ []) :
    tokenizeSpm vocab text = naiveSpm vocab text := by
  obtain ⟨session, hsession, hsegments⟩ := mergedSpm_segments vocab h
  have hreseg : (fun i => resegment vocab session.symbols session.notes
      (session.symbols.length + 1) (symbolAt session.symbols i).toPiece) =
        fun i => tokensOf vocab (symbolAt session.symbols i).str :=
    funext fun i => resegment_eq (mergedSpm_revMerge hsession) session.symbols _ _
  rw [tokenizeSpm, naiveSpm, hsession, ← hsegments, List.mapM_map]
  simp only [Option.bind_eq_bind, Option.bind_some]
  rw [hreseg]
  exact Option.map_eq_bind.symm

/-! ### What the tokens stand for -/

def hexValue (c : UInt8) : Option Nat :=
  if 48 ≤ c ∧ c ≤ 57 then some (c.toNat - 48)
  else if 65 ≤ c ∧ c ≤ 70 then some (c.toNat - 55)
  else if 97 ≤ c ∧ c ≤ 102 then some (c.toNat - 87)
  else none

/-- `strtol` to base 16, on digits alone. -/
def strtolHex (acc : Nat) : List UInt8 → Nat
  | [] => acc
  | c :: cs =>
    match hexValue c with
    | none => acc
    | some v => strtolHex (16 * acc + v) cs

/-- `token_to_byte`. -/
def tokenToByte (data : TokenData Score) : UInt8 :=
  (strtolHex 0 ((data.text.drop 3).take 2)).toUInt8

/-- A token stands for its text, and a byte token for its byte. -/
def tokenPiece (vocab : Vocab Score) (token : Nat) : List UInt8 :=
  let data := vocab.idToToken token
  if data.isByte then [tokenToByte data] else data.text

/-- The map is the one back from the texts, byte tokens are spelled as bytes, and there is one for
each byte. -/
structure Vocab.Loaded (vocab : Vocab Score) : Prop where
  text_eq : ∀ {s token}, vocab.tokenToId s = some token →
    token < vocab.nTokens ∧ (vocab.idToToken token).text = s
  spelled : ∀ {s token}, vocab.tokenToId s = some token → (vocab.idToToken token).isByte = true →
    ∃ ch, s = byteSpelling ch
  bytes : ∀ ch, ∃ token, vocab.tokenToId (byteSpelling ch) = some token ∧
    (vocab.idToToken token).isByte = true

theorem hexValue_hexDigits (h : n < 16) : hexValue (hexDigits.getD n 0) = some n := by
  have hall : ∀ m ∈ List.range 16, hexValue (hexDigits.getD m 0) = some m := by decide
  exact hall n (List.mem_range.2 h)

omit [LinearOrder Score] in
theorem tokenToByte_eq {data : TokenData Score} (h : data.text = byteSpelling ch) :
    tokenToByte data = ch := by
  have hlt := ch.toNat_lt
  have hhigh : hexValue (hexDigits.getD (ch.toNat / 16) 0) = some (ch.toNat / 16) :=
    hexValue_hexDigits (by omega)
  have hlow : hexValue (hexDigits.getD (ch.toNat % 16) 0) = some (ch.toNat % 16) :=
    hexValue_hexDigits (by omega)
  have hdigits : (data.text.drop 3).take 2 =
      [hexDigits.getD (ch.toNat / 16) 0, hexDigits.getD (ch.toNat % 16) 0] := by
    rw [h]
    rfl
  rw [tokenToByte, hdigits, strtolHex, hhigh]
  dsimp only
  rw [strtolHex, hlow]
  dsimp only
  rw [strtolHex, Nat.mul_zero, Nat.zero_add, Nat.div_add_mod]
  exact UInt8.ofNat_toNat

omit [LinearOrder Score] in
theorem tokenPiece_byte {vocab : Vocab Score} (h : vocab.Loaded)
    (htoken : vocab.tokenToId (byteSpelling ch) = some token) : tokenPiece vocab token = [ch] := by
  obtain ⟨token', htoken', hbyte⟩ := h.bytes ch
  cases htoken.symm.trans htoken'
  rw [tokenPiece, if_pos hbyte, tokenToByte_eq (h.text_eq htoken).2]

omit [LinearOrder Score] in
theorem tokenPiece_text {vocab : Vocab Score} (h : vocab.Loaded)
    (htoken : vocab.tokenToId s = some token) (hs : ∀ ch, s ≠ byteSpelling ch) :
    tokenPiece vocab token = s := by
  rw [tokenPiece, if_neg, (h.text_eq htoken).2]
  intro hbyte
  obtain ⟨ch, hch⟩ := h.spelled htoken hbyte
  exact hs ch hch

omit [LinearOrder Score] in
theorem mapM_byteToToken {vocab : Vocab Score} (h : vocab.Loaded) (s : List UInt8) :
    ∃ tokens, s.mapM (byteToToken vocab) = some tokens ∧
      tokens.flatMap (tokenPiece vocab) = s := by
  induction s with
  | nil => exact ⟨[], rfl, rfl⟩
  | cons ch s ih =>
    obtain ⟨tokens, htokens, hpieces⟩ := ih
    obtain ⟨token, htoken, _⟩ := h.bytes ch
    refine ⟨token :: tokens, ?_, ?_⟩
    · rw [List.mapM_cons, htokens, byteToToken, htoken]
      rfl
    · rw [List.flatMap_cons, hpieces, tokenPiece_byte h htoken]
      rfl

omit [LinearOrder Score] in
/-- A segment comes back from its tokens, unless it is spelled as a byte. -/
theorem tokensOf_pieces {vocab : Vocab Score} (h : vocab.Loaded) (s : List UInt8) :
    ∃ tokens, tokensOf vocab s = some tokens ∧
      ((∀ ch, s ≠ byteSpelling ch) ∧ tokens.flatMap (tokenPiece vocab) = s ∨
        (∃ ch, s = byteSpelling ch) ∧ (tokens.flatMap (tokenPiece vocab)).length < s.length) := by
  rw [tokensOf]
  by_cases hs : ∃ ch, s = byteSpelling ch
  · obtain ⟨ch, rfl⟩ := hs
    obtain ⟨token, htoken, _⟩ := h.bytes ch
    rw [htoken]
    refine ⟨[token], rfl, .inr ⟨⟨ch, rfl⟩, ?_⟩⟩
    rw [List.flatMap_singleton, tokenPiece_byte h htoken]
    exact Nat.succ_lt_succ (Nat.zero_lt_succ 4)
  · have hs' : ∀ ch, s ≠ byteSpelling ch := fun ch hch => hs ⟨ch, hch⟩
    cases htoken : vocab.tokenToId s with
    | none =>
      obtain ⟨tokens, htokens, hpieces⟩ := mapM_byteToToken h s
      exact ⟨tokens, htokens, .inl ⟨hs', hpieces⟩⟩
    | some token =>
      refine ⟨[token], rfl, .inl ⟨hs', ?_⟩⟩
      rw [List.flatMap_singleton, tokenPiece_text h htoken hs']

omit [LinearOrder Score] in
theorem tokensOf_all {vocab : Vocab Score} (h : vocab.Loaded) (segments : List (List UInt8)) :
    ∃ output, (segments.mapM (tokensOf vocab)).map List.flatten = some output ∧
      ((∀ s ∈ segments, ∀ ch, s ≠ byteSpelling ch) ∧
          output.flatMap (tokenPiece vocab) = segments.flatten ∨
        (∃ s ∈ segments, ∃ ch, s = byteSpelling ch) ∧
          (output.flatMap (tokenPiece vocab)).length < segments.flatten.length) := by
  induction segments with
  | nil => exact ⟨[], rfl, .inl ⟨fun s hs => absurd hs List.not_mem_nil, rfl⟩⟩
  | cons s segments ih =>
    obtain ⟨output, houtput, hrest⟩ := ih
    obtain ⟨tokens, htokens, hone⟩ := tokensOf_pieces h s
    obtain ⟨outputs, houtputs, rfl⟩ := Option.map_eq_some_iff.1 houtput
    refine ⟨tokens ++ outputs.flatten, ?_, ?_⟩
    · rw [List.mapM_cons, htokens, houtputs]
      rfl
    · rw [List.flatMap_append, List.flatten_cons, List.length_append, List.length_append]
      rcases hone with ⟨hs, hpiece⟩ | ⟨hs, hpiece⟩
      · rcases hrest with ⟨hsegments, hpieces⟩ | ⟨⟨s', hs', hspelled⟩, hpieces⟩
        · refine .inl ⟨?_, by rw [hpiece, hpieces]⟩
          intro s' hs'
          rcases List.mem_cons.1 hs' with rfl | hs'
          · exact hs
          · exact hsegments s' hs'
        · refine .inr ⟨⟨s', List.mem_cons_of_mem _ hs', hspelled⟩, ?_⟩
          rw [hpiece]
          omega
      · refine .inr ⟨⟨s, List.mem_cons_self, hs⟩, ?_⟩
        have hle : (outputs.flatten.flatMap (tokenPiece vocab)).length ≤
            segments.flatten.length := by
          rcases hrest with ⟨_, hpieces⟩ | ⟨_, hpieces⟩
          · exact Nat.le_of_eq (congrArg List.length hpieces)
          · exact Nat.le_of_lt hpieces
        omega

/-- The session merges as the naive tokenizer does and ends, its output is the naive one, and the
output stands for the text if and only if no segment is spelled as a byte. -/
theorem tokenizeSpm_refines (vocab : Vocab Score) (h : text ≠ []) :
    (∃ session, mergedSpm vocab text = some session ∧
      (walk session.symbols session.symbols.length 0).map
          (fun i => (symbolAt session.symbols i).str) = segmentsSpm vocab text) ∧
    tokenizeSpm vocab text = naiveSpm vocab text ∧
    (vocab.Loaded → ∃ output, tokenizeSpm vocab text = some output ∧
      (output.flatMap (tokenPiece vocab) = text ↔
        ∀ s ∈ segmentsSpm vocab text, ∀ ch, s ≠ byteSpelling ch)) := by
  refine ⟨mergedSpm_segments vocab h, tokenizeSpm_eq vocab h, fun hvocab => ?_⟩
  have hflat : (segmentsSpm vocab text).flatten = text := by
    rw [segmentsSpm, flatten_greedyMerge, flatten_charsOf]
  obtain ⟨output, houtput, hcases⟩ := tokensOf_all hvocab (segmentsSpm vocab text)
  refine ⟨output, (tokenizeSpm_eq vocab h).trans houtput, ?_⟩
  rw [hflat] at hcases
  rcases hcases with ⟨hnone, heq⟩ | ⟨⟨s, hs, ch, hch⟩, hlt⟩
  · exact iff_of_true heq hnone
  · refine iff_of_false ?_ fun hall => hall s hs ch hch
    intro heq
    rw [heq] at hlt
    exact Nat.lt_irrefl _ hlt

/-- The byte tokens, and the four tokens `<0`, `<0x`, `<0x4` and `<0x41`. -/
def spellingVocab : Vocab Nat where
  tokenToId s :=
    if s.length < 6 ∧ 2 ≤ s.length ∧ s = (byteSpelling 65).take s.length then some (254 + s.length)
    else
      let ch := (strtolHex 0 ((s.drop 3).take 2)).toUInt8
      if byteSpelling ch = s then some ch.toNat else none
  nTokens := 260
  idToToken token :=
    if token < 256 then ⟨byteSpelling token.toUInt8, 0, true⟩
    else ⟨(byteSpelling 65).take (token - 254), token, false⟩

theorem loaded_spellingVocab : spellingVocab.Loaded where
  text_eq := by
    intro s token h
    rw [spellingVocab] at h ⊢
    dsimp only at h ⊢
    split at h
    case isTrue hs =>
      cases h
      obtain ⟨hlt, hle, heq⟩ := hs
      rw [if_neg (by omega), Nat.add_sub_cancel_left]
      exact ⟨by omega, heq.symm⟩
    case isFalse =>
      split at h
      case isTrue hs =>
        cases h
        have hlt := (strtolHex 0 ((s.drop 3).take 2)).toUInt8.toNat_lt
        rw [if_pos hlt]
        refine ⟨by omega, ?_⟩
        exact (congrArg byteSpelling UInt8.ofNat_toNat).trans hs
      case isFalse => cases h
  spelled := by
    intro s token h hbyte
    rw [spellingVocab] at h hbyte
    dsimp only at h hbyte
    split at h
    case isTrue hs =>
      cases h
      rw [if_neg (by omega)] at hbyte
      cases hbyte
    case isFalse =>
      split at h
      case isTrue hs => exact ⟨_, hs.symm⟩
      case isFalse => cases h
  bytes := by
    intro ch
    have hch : (strtolHex 0 (((byteSpelling ch).drop 3).take 2)).toUInt8 = ch :=
      (tokenToByte_eq rfl : tokenToByte (⟨byteSpelling ch, 0, true⟩ : TokenData Nat) = ch)
    refine ⟨ch.toNat, ?_, ?_⟩
    · rw [spellingVocab]
      dsimp only
      rw [if_neg (fun h => absurd h.1 (Nat.lt_irrefl 6)), hch, if_pos rfl]
    · rw [spellingVocab]
      dsimp only
      rw [if_pos ch.toNat_lt]

theorem tokenizeSpm_refines_spelled :
    tokenizeSpm spellingVocab (byteSpelling 65) = naiveSpm spellingVocab (byteSpelling 65) :=
  (tokenizeSpm_refines spellingVocab (List.cons_ne_nil _ _)).2.1

/-- A text that is spelled as a byte comes out as that byte. -/
theorem tokenizeSpm_reads_spelling :
    spellingVocab.Loaded ∧ tokenizeSpm spellingVocab (byteSpelling 65) = some [65] ∧
      [65].flatMap (tokenPiece spellingVocab) = [65] ∧ byteSpelling 65 ≠ [65] :=
  ⟨loaded_spellingVocab, by decide, by decide, by decide⟩

end ActQuant.Tokenizer
