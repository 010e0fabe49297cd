import ActQuant.Tokenizer.Symbols
import Mathlib.Algebra.Order.Ring.Int
import Mathlib.Data.List.Sort

namespace ActQuant.Tokenizer
open ActQuant.Lib

/-- What the session reads of a vocabulary. -/
structure VocabBpe where
  tokenToId : List UInt8 → Option Nat
  bpeRanks : List UInt8 → List UInt8 → Option Int
  ignoreMerges : Bool

/-- `find_bpe_rank`; the words have no blank in them, as it asserts. -/
def findBpeRank (vocab : VocabBpe) (tokenLeft tokenRight : List UInt8) : Int :=
  match vocab.bpeRanks tokenLeft tokenRight with
  | none => -1
  | some rank => rank

/-- `llm_bigram_bpe`. -/
structure BigramBpe where
  left : Nat
  right : Nat
  text : List UInt8
  rank : Int
  size : Nat

/-- `llm_bigram_bpe::comparator`. -/
def comparatorBpe (l r : BigramBpe) : Bool :=
  l.rank > r.rank || (l.rank == r.rank && l.left > r.left)

/-- What `add_new_bigram` puts into the queue for two symbols. -/
def bigramBpe (vocab : VocabBpe) (left right : Piece UInt8) (l r : Nat) : Option BigramBpe :=
  let leftToken := left.str
  let rightToken := right.str
  let rankFound := findBpeRank vocab leftToken rightToken
  if rankFound < 0 then none
  else
    some ⟨l, r, leftToken ++ rightToken, rankFound, leftToken.length + rightToken.length⟩

/-- The merge of `llm_tokenizer_bpe_session`. -/
def bpeScheme (vocab : VocabBpe) : Scheme UInt8 BigramBpe Unit where
  left := BigramBpe.left
  right := BigramBpe.right
  found := bigramBpe vocab
  note _ _ _ _ notes := notes
  outdated left right bigram := left.str ++ right.str != bigram.text
  before x y := !comparatorBpe x y

/-- A word that is a token may be taken as it is. -/
def keptWhole (vocab : VocabBpe) (word : List UInt8) : Bool :=
  vocab.ignoreMerges && (vocab.tokenToId word).isSome

def wordSymbols (vocab : VocabBpe) (word : List UInt8) : List (Symbol UInt8) :=
  if keptWhole vocab word then [⟨⟨word, word.length⟩, -1, -1⟩] else symbolsOf word

/-- The symbols of a word when its queue is empty. -/
def mergedWord (vocab : VocabBpe) (word : List UInt8) : Option (List (Symbol UInt8)) :=
  (mergeSymbols (bpeScheme vocab) ⟨wordSymbols vocab word, [], ()⟩).map Work.symbols

/-- `symbols_final` and `final_prev_index`. -/
structure Final where
  symbols : List (Symbol UInt8)
  prevIndex : Int

/-- A symbol is appended if there is something left of it. -/
def appendFinal (final : Final) (sym : Symbol UInt8) : Final :=
  if 0 < sym.n then
    let linked :=
      if final.prevIndex = -1 then final.symbols
      else
        let last := symbolAt final.symbols final.prevIndex.toNat
        final.symbols.set final.prevIndex.toNat ⟨last.toPiece, last.prev, final.symbols.length⟩
    ⟨linked ++ [⟨sym.toPiece, final.prevIndex, -1⟩], final.symbols.length⟩
  else final

/-- The loop over the words of the text. -/
def finalSymbols (vocab : VocabBpe) : List (List UInt8) → Final → Option Final
  | [], final => some final
  | word :: words, final => do
    let symbols ← mergedWord vocab word
    finalSymbols vocab words (symbols.foldl appendFinal final)

/-- The tokens of a final symbol; bytes without a token are left out. -/
def symbolTokens (vocab : VocabBpe) (str : List UInt8) : List Nat :=
  match vocab.tokenToId str with
  | none => str.filterMap fun ch => vocab.tokenToId [ch]
  | some token => [token]

/-- `llm_tokenizer_bpe_session::tokenize`, for the words the text is split into. -/
def tokenizeBpe (vocab : VocabBpe) (words : List (List UInt8)) : Option (List Nat) := do
  let final ← finalSymbols vocab words ⟨[], -1⟩
  if final.symbols = [] then
    return []
  else
    return (walk final.symbols final.symbols.length 0).flatMap fun i =>
      let symbol := symbolAt final.symbols i
      if symbol.n = 0 then [] else symbolTokens vocab symbol.str

/-! ### The naive tokenizer -/

/-- Pairs that have a rank. -/
def pairRank (vocab : VocabBpe) (a b : List UInt8) : Option Int :=
  if findBpeRank vocab a b < 0 then none else some (findBpeRank vocab a b)

/-- What is left of a word when no two neighbours have a rank. -/
def segmentsBpe (vocab : VocabBpe) (word : List UInt8) : List (List UInt8) :=
  if word ≠ [] ∧ keptWhole vocab word then [word]
  else greedyMerge (pairRank vocab) (charsOf word)

/-! ### The words -/

theorem bigramBpe_eq_some {vocab : VocabBpe} (h : bigramBpe vocab left right l r = some e) :
    0 ≤ findBpeRank vocab left.str right.str ∧
      e = ⟨l, r, left.str ++ right.str, findBpeRank vocab left.str right.str,
        left.str.length + right.str.length⟩ := by
  rw [bigramBpe] at h
  split at h
  case isTrue => cases h
  case isFalse hrank =>
    cases h
    exact ⟨Int.not_lt.1 hrank, rfl⟩

theorem length_str {p : Piece UInt8} (h : p.n ≤ p.text.length) : p.str.length = p.n := by
  rw [Piece.str, List.length_take, Nat.min_eq_left h]

theorem lawful_bpeScheme (vocab : VocabBpe) :
    (bpeScheme vocab).Lawful BigramBpe.rank (pairRank vocab) where
  left_eq h := by
    obtain ⟨_, rfl⟩ := bigramBpe_eq_some h
    rfl
  right_eq h := by
    obtain ⟨_, rfl⟩ := bigramBpe_eq_some h
    rfl
  rank_eq h := by
    rw [bpeScheme, pairRank]
    dsimp only
    rw [bigramBpe]
    split <;> rfl
  outdated_eq := by
    intro i j e l r l' r' h hr hl' hr' hll hl hrr hrlen
    obtain ⟨_, rfl⟩ := bigramBpe_eq_some h
    change (l'.str ++ r'.str != l.str ++ r.str) = false ↔ _
    rw [bne_eq_false_iff_eq]
    constructor
    · intro heq
      have hlen := congrArg List.length heq
      rw [List.length_append, List.length_append, length_str (hl' ▸ hl), length_str (hr' ▸ hrlen),
        length_str (hll.trans hl), length_str (hrr.trans hrlen)] at hlen
      omega
    · rintro ⟨hln, hrn⟩
      rw [Piece.str, Piece.str, hl', hr', hln, hrn]
      rfl
  before_iff := by
    intro e e'
    change (!comparatorBpe e e') = true ↔ e.rank < e'.rank ∨ e.rank = e'.rank ∧ e.left ≤ e'.left
    rw [comparatorBpe, Bool.not_eq_true', Bool.or_eq_false_iff, decide_eq_false_iff_not]
    rcases Int.lt_trichotomy e.rank e'.rank with hlt | heq | hlt
    · rw [beq_false_of_ne (Int.ne_of_lt hlt), Bool.false_and]
      exact iff_of_true ⟨by omega, rfl⟩ (.inl hlt)
    · rw [heq, beq_self_eq_true, Bool.true_and, decide_eq_false_iff_not]
      omega
    · exact iff_of_false (fun h => absurd hlt h.1) (by omega)

theorem chain_wordSymbols (vocab : VocabBpe) {word : List UInt8} (h : word ≠ []) :
    Chain (wordSymbols vocab word) word (List.range (wordSymbols vocab word).length) ∧
      pieces (wordSymbols vocab word) (List.range (wordSymbols vocab word).length) =
        if keptWhole vocab word then [word] else charsOf word := by
  rw [wordSymbols]
  split
  · refine ⟨⟨?_, List.pairwise_lt_range, ?_⟩, ?_⟩
    · exact ⟨Nat.one_pos, rfl, rfl, rfl, List.length_pos_iff.2 h, Nat.le_refl _, List.drop_length⟩
    · intro i hi
      rw [List.mem_range, Nat.not_lt] at hi
      rw [symbolAt, List.getD_eq_default _ _ hi]
    · exact congrArg (fun s => [s]) (List.take_length)
  · exact ⟨chain_symbolsOf word, pieces_symbolsOf word⟩

/-- The symbols with something left of them are those of the chain. -/
theorem filter_symbols {symbols : List (Symbol UInt8)} {word : List UInt8}
    (h : Chain symbols word live) :
    (symbols.filter fun s => 0 < s.n).map (fun s => s.str) = pieces symbols live := by
  have hall : symbols = (List.range symbols.length).map (symbolAt symbols) := by
    refine List.ext_getElem? fun i => ?_
    rw [List.getElem?_map]
    by_cases hi : i < symbols.length
    · rw [List.getElem?_range hi, Option.map_some, symbolAt, List.getD_eq_getElem _ _ hi,
        List.getElem?_eq_getElem hi]
    · rw [List.getElem?_eq_none (Nat.not_lt.1 hi),
        List.getElem?_eq_none (by rwa [List.length_range, ← Nat.not_lt])]
      rfl
  have hlive : (List.range symbols.length).filter (fun i => 0 < (symbolAt symbols i).n) = live := by
    refine (List.pairwise_lt_range.filter _).eq_of_mem_iff h.sorted fun i => ?_
    rw [List.mem_filter, List.mem_range, decide_eq_true_eq]
    constructor
    · rintro ⟨_, hpos⟩
      by_contra hi
      exact Nat.ne_of_gt hpos (h.dead i hi)
    · intro hi
      obtain ⟨hlt, hpos, _⟩ := h.linked.mem hi
      exact ⟨hlt, hpos⟩
  rw [pieces, ← hlive]
  nth_rewrite 1 [hall]
  rw [List.filter_map, List.map_map]
  rfl

/-- The queue of a word becomes empty, and the symbols have the texts the naive tokenizer is left
with. -/
theorem mergedWord_segments (vocab : VocabBpe) (word : List UInt8) :
    ∃ symbols, mergedWord vocab word = some symbols ∧
      (symbols.filter fun s => 0 < s.n).map (fun s => s.str) = segmentsBpe vocab word := by
  by_cases hword : word = []
  · subst hword
    rw [mergedWord, wordSymbols]
    cases keptWhole vocab [] with
    | false => exact ⟨_, rfl, rfl⟩
    | true => exact ⟨_, rfl, rfl⟩
  · obtain ⟨hchain, hstart⟩ := chain_wordSymbols vocab hword
    obtain ⟨session, live, hsession, hchain', hpieces, _, _⟩ :=
      mergeSymbols_greedy (lawful_bpeScheme vocab)
        (w := ⟨wordSymbols vocab word, [], ()⟩) hchain rfl
    refine ⟨session.symbols, by rw [mergedWord, hsession]; rfl, ?_⟩
    rw [filter_symbols hchain', hpieces, hstart, segmentsBpe]
    by_cases hkept : keptWhole vocab word = true
    · rw [if_pos hkept, if_pos ⟨hword, hkept⟩]
      rfl
    · rw [if_neg hkept, if_neg fun h => hkept h.2]

theorem flatten_segmentsBpe (vocab : VocabBpe) (word : List UInt8) :
    (segmentsBpe vocab word).flatten = word := by
  rw [segmentsBpe]
  split
  · exact List.append_nil word
  · rw [flatten_greedyMerge, flatten_charsOf]

/-! ### The final symbols -/

/-- The final symbols stand in a row, each with a piece of text. -/
structure Final.Wf (final : Final) (strs : List (List UInt8)) : Prop where
  prevIndex_eq : final.prevIndex = (final.symbols.length : Int) - 1
  strs_eq : final.symbols.map (fun s => s.str) = strs
  pos : ∀ i < final.symbols.length, 0 < (symbolAt final.symbols i).n
  prev_eq : ∀ i < final.symbols.length, (symbolAt final.symbols i).prev = (i : Int) - 1
  next_eq : ∀ i < final.symbols.length, (symbolAt final.symbols i).next =
    if i + 1 = final.symbols.length then -1 else (i : Int) + 1

theorem Final.wf_empty : Final.Wf ⟨[], -1⟩ [] where
  prevIndex_eq := rfl
  strs_eq := rfl
  pos i hi := absurd hi (Nat.not_lt_zero i)
  prev_eq i hi := absurd hi (Nat.not_lt_zero i)
  next_eq i hi := absurd hi (Nat.not_lt_zero i)

theorem symbolAt_append (symbols : List (Symbol UInt8)) (s : Symbol UInt8) (i : Nat)
    (hi : i ≤ symbols.length) :
    symbolAt (symbols ++ [s]) i = if i = symbols.length then s else symbolAt symbols i := by
  rw [symbolAt, symbolAt, List.getD_eq_getElem?_getD, List.getD_eq_getElem?_getD]
  split
  case isTrue h =>
    rw [h, List.getElem?_concat_length]
    rfl
  case isFalse h => rw [List.getElem?_append_left (by omega)]

/-- The last symbol now has a next one. -/
theorem Final.Wf.linked {final : Final} (h : final.Wf strs) :
    ∃ linked, (if final.prevIndex = -1 then final.symbols
        else final.symbols.set final.prevIndex.toNat
          ⟨(symbolAt final.symbols final.prevIndex.toNat).toPiece,
            (symbolAt final.symbols final.prevIndex.toNat).prev, final.symbols.length⟩) = linked ∧
      linked.length = final.symbols.length ∧ linked.map (fun s => s.str) = strs ∧
      ∀ i < final.symbols.length, 0 < (symbolAt linked i).n ∧
        (symbolAt linked i).prev = (i : Int) - 1 ∧ (symbolAt linked i).next = (i : Int) + 1 := by
  by_cases hprev : final.prevIndex = -1
  · refine ⟨final.symbols, if_pos hprev, rfl, h.strs_eq, fun i hi => ?_⟩
    have hlen := h.prevIndex_eq
    omega
  · have hlen := h.prevIndex_eq
    obtain ⟨last, hlast⟩ : ∃ last, final.symbols.length = last + 1 :=
      ⟨final.symbols.length - 1, by omega⟩
    have hindex : final.prevIndex.toNat = last := by omega
    have hlt : last < final.symbols.length := by omega
    refine ⟨_, if_neg hprev, List.length_set, ?_, fun i hi => ?_⟩
    · rw [← h.strs_eq, hindex]
      refine List.ext_getElem? fun i => ?_
      rw [List.getElem?_map, List.getElem?_map, List.getElem?_set]
      split
      case isTrue hi =>
        subst hi
        rw [symbolAt, List.getD_eq_getElem _ _ hlt, List.getElem?_eq_getElem hlt]
        rfl
      case isFalse => rfl
    · rw [hindex, symbolAt_set hlt]
      by_cases hil : i = last
      · subst hil
        rw [if_pos rfl]
        exact ⟨h.pos i hi, h.prev_eq i hi, by rw [hlast]; rfl⟩
      · rw [if_neg hil]
        refine ⟨h.pos i hi, h.prev_eq i hi, ?_⟩
        rw [h.next_eq i hi, if_neg (by omega)]

theorem Final.Wf.append {final : Final} (h : final.Wf strs) (sym : Symbol UInt8) :
    (appendFinal final sym).Wf (strs ++ if 0 < sym.n then [sym.str] else []) := by
  rw [appendFinal]
  by_cases hn : 0 < sym.n
  · rw [if_pos hn, if_pos hn]
    obtain ⟨linked, hlinked, hlen, hstrs, hat⟩ := h.linked
    dsimp only
    rw [hlinked]
    have hlast (i : Nat) (hi : i < (linked ++ [(⟨sym.toPiece, final.prevIndex, -1⟩ :
        Symbol UInt8)]).length) : i ≤ linked.length := by
      rw [List.length_append, List.length_singleton] at hi
      omega
    refine ⟨?_, ?_, fun i hi => ?_, fun i hi => ?_, fun i hi => ?_⟩
    · rw [List.length_append, List.length_singleton, hlen, Int.natCast_add_one,
        Int.add_sub_cancel]
    · rw [List.map_append, hstrs]
      rfl
    · rw [symbolAt_append _ _ _ (hlast i hi)]
      split
      case isTrue => exact hn
      case isFalse hne => exact (hat i (by have := hlast i hi; omega)).1
    · rw [symbolAt_append _ _ _ (hlast i hi)]
      split
      case isTrue heq =>
        rw [heq, hlen]
        exact h.prevIndex_eq
      case isFalse hne => exact (hat i (by have := hlast i hi; omega)).2.1
    · rw [symbolAt_append _ _ _ (hlast i hi), List.length_append, List.length_singleton]
      split
      case isTrue heq => rw [if_pos (by omega)]
      case isFalse hne =>
        rw [if_neg (by omega)]
        exact (hat i (by have := hlast i hi; omega)).2.2
  · rw [if_neg hn, if_neg hn, List.append_nil]
    exact h

theorem Final.Wf.foldl {final : Final} (h : final.Wf strs) (symbols : List (Symbol UInt8)) :
    (symbols.foldl appendFinal final).Wf
      (strs ++ (symbols.filter fun s => 0 < s.n).map fun s => s.str) := by
  induction symbols generalizing final strs with
  | nil =>
    rw [List.filter_nil, List.map_nil, List.append_nil]
    exact h
  | cons sym symbols ih =>
    have hrest := ih (h.append sym)
    rw [List.foldl_cons]
    by_cases hn : 0 < sym.n
    · rw [if_pos hn, List.append_assoc] at hrest
      rw [List.filter_cons_of_pos (by rwa [decide_eq_true_eq]), List.map_cons]
      exact hrest
    · rw [if_neg hn, List.append_nil] at hrest
      rw [List.filter_cons_of_neg (by rwa [decide_eq_true_eq])]
      exact hrest

theorem finalSymbols_wf (vocab : VocabBpe) (words : List (List UInt8)) {final : Final}
    (h : final.Wf strs) :
    ∃ final', finalSymbols vocab words final = some final' ∧
      final'.Wf (strs ++ words.flatMap (segmentsBpe vocab)) := by
  induction words generalizing final strs with
  | nil =>
    rw [List.flatMap_nil, List.append_nil]
    exact ⟨final, rfl, h⟩
  | cons word words ih =>
    obtain ⟨symbols, hsymbols, hsegments⟩ := mergedWord_segments vocab word
    have hword := h.foldl symbols
    rw [hsegments] at hword
    obtain ⟨final', hfinal, hwf⟩ := ih hword
    refine ⟨final', ?_, ?_⟩
    · rw [finalSymbols, hsymbols]
      exact hfinal
    · rw [List.flatMap_cons, ← List.append_assoc]
      exact hwf

/-- The final symbols are gone through from the first to the last. -/
theorem Final.Wf.walk_eq {final : Final} (h : final.Wf strs) (hne : final.symbols ≠ []) :
    walk final.symbols final.symbols.length 0 = List.range final.symbols.length := by
  have hfrom (m k : Nat) (hk : k + (m + 1) = final.symbols.length) :
      walk final.symbols (m + 1) k = List.range' k (m + 1) := by
    induction m generalizing k with
    | zero =>
      rw [walk, if_neg (by omega), Int.toNat_natCast]
      rfl
    | succ m ih =>
      rw [walk, if_neg (by omega), Int.toNat_natCast, h.next_eq k (by omega), if_neg (by omega),
        List.range'_succ]
      congr 1
      exact ih (k + 1) (by omega)
  obtain ⟨m, hm⟩ : ∃ m, final.symbols.length = m + 1 :=
    ⟨final.symbols.length - 1, by have := List.length_pos_iff.2 hne; omega⟩
  rw [hm, List.range_eq_range']
  exact hfrom m 0 (by omega)

/-- Each word is merged as the naive tokenizer does, unless it is kept whole, and the final symbols
are the pieces of the words, one word after the other. -/
theorem tokenizeBpe_refines (vocab : VocabBpe) (words : List (List UInt8)) :
    (∀ word, ∃ symbols, mergedWord vocab word = some symbols ∧
      (symbols.filter fun s => 0 < s.n).map (fun s => s.str) = segmentsBpe vocab word) ∧
    (∃ final, finalSymbols vocab words ⟨[], -1⟩ = some final ∧
      final.Wf (words.flatMap (segmentsBpe vocab)) ∧
      (final.symbols.map fun s => s.str).flatten = words.flatten) ∧
    tokenizeBpe vocab words =
      some ((words.flatMap (segmentsBpe vocab)).flatMap (symbolTokens vocab)) := by
  obtain ⟨final, hfinal, hwf⟩ := finalSymbols_wf vocab words Final.wf_empty
  rw [List.nil_append] at hwf
  refine ⟨mergedWord_segments vocab, ⟨final, hfinal, hwf, ?_⟩, ?_⟩
  · have hwords : words.map (List.flatten ∘ segmentsBpe vocab) = words := by
      refine (List.map_congr_left fun word _ => ?_).trans (List.map_id words)
      exact flatten_segmentsBpe vocab word
    rw [hwf.strs_eq, List.flatMap_def, List.flatten_flatten, List.map_map, hwords]
  · rw [tokenizeBpe, hfinal]
    simp only [Option.bind_eq_bind, Option.bind_some]
    split
    case isTrue hnil =>
      rw [← hwf.strs_eq, hnil]
      rfl
    case isFalse hne =>
      rw [hwf.walk_eq hne, ← hwf.strs_eq, ← pieces_all, pieces, List.flatMap_map]
      refine congrArg some (List.flatMap_congr fun i hi => ?_)
      have hpos := hwf.pos i (List.mem_range.1 hi)
      rw [if_neg (Nat.ne_of_gt hpos)]

/-- One token for a word, and no ranks. -/
def keepingVocab : VocabBpe where
  tokenToId s := if s = [97, 98] then some 0 else none
  bpeRanks _ _ := none
  ignoreMerges := true

/-- A word that is a token is kept whole, although no pair of it has a rank. -/
theorem mergedWord_keeps_word :
    (mergedWord keepingVocab [97, 98]).map
        (fun symbols => (symbols.filter fun s => 0 < s.n).map fun s => s.str) = some [[97, 98]] ∧
      greedyMerge (pairRank keepingVocab) (charsOf [97, 98]) = [[97], [98]] := by
  decide

end ActQuant.Tokenizer
