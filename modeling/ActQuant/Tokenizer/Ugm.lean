import ActQuant.Lib.BestPath
import ActQuant.Lib.Chars
import ActQuant.Lib.Trie
import ActQuant.Tokenizer.Symbols

namespace ActQuant.Tokenizer.Ugm
open ActQuant.Lib ActQuant.Lib.BestPath

/-! The unigram tokenizer, with sums of scores that are not rounded. -/

def fltMax : ℚ := (2 ^ 24 - 1) * 2 ^ 104

def dblMax : ℚ := (2 ^ 53 - 1) * 2 ^ 971

/-- What is read of `token_data`, with the attributes that are asked for. -/
structure TokenData where
  text : List UInt8
  score : ℚ
  normal : Bool
  userDefined : Bool
  unused : Bool

/-- The bytes of one code point: the first says how many they are. -/
def IsChar (w : List UInt8) : Prop := w ≠ [] ∧ unicodeLenUtf8 (w.headD 0) = w.length

/-- A text of whole code points. -/
def Whole (text : List UInt8) : Prop :=
  ∃ cs : List (List UInt8), (∀ c ∈ cs, IsChar c) ∧ cs.flatten = text

/-- A vocabulary as it is loaded: the texts differ and none is empty. -/
structure Vocab where
  tokens : List TokenData
  tokenUnk : Int
  finite : ∀ x ∈ tokens, |x.score| ≤ fltMax
  whole : ∀ x ∈ tokens, Whole x.text
  nonempty : ∀ x ∈ tokens, x.text ≠ []
  nodup : (tokens.map TokenData.text).Nodup

/-- The tokens that are matched with the text. -/
def TokenData.matched (x : TokenData) : Bool := x.normal || x.userDefined || x.unused

/-- `best_tokenization`: the token that ends here, where it begins, and the sum of the scores. -/
abbrev BestTokenization := Cell Int ℚ

namespace Vocab
variable (v : Vocab)

def minScore : ℚ :=
  v.tokens.foldl (fun m x => if x.normal then min m x.score else m) fltMax

def unknownTokenScore : ℚ := v.minScore - 10

/-- The texts that the matcher gets, with their tokens. -/
def entries : List (List UInt8 × Int) :=
  (v.tokens.zipIdx.filter fun x => x.1.matched).map fun x => (x.1.text, (x.2 : Int))

def tokenMatcher : Trie UInt8 Int := .ofList v.entries

/-- The score of a token, which counts as 0 where the user defined it. -/
def tokenScore (id : Int) : ℚ :=
  (v.tokens[id.toNat]?).elim 0 fun x => if x.userDefined then 0 else x.score

/-- A node of the matcher with a token, after a prefix that ends at `prefixOffset`; whether a token
was found for the one code point. -/
def checkNode (n inputOffset prefixOffset : Nat) (node : Trie UInt8 Int)
    (st : (Nat → BestTokenization) × Bool) : (Nat → BestTokenization) × Bool :=
  node.value.elim st fun id =>
    (challenge st.1 prefixOffset
      ⟨id, inputOffset, (st.1 inputOffset).score + v.tokenScore id⟩,
      st.2 || prefixOffset - inputOffset == n)

/-- The loop down the matcher, with the rest of the text. -/
def traverseMatcher (n inputOffset : Nat) : List UInt8 → Nat → Option (Trie UInt8 Int) →
    (Nat → BestTokenization) × Bool → (Nat → BestTokenization) × Bool
  | _, _, none, st => st
  | [], prefixOffset, some node, st => v.checkNode n inputOffset prefixOffset node st
  | c :: rest, prefixOffset, some node, st =>
    traverseMatcher n inputOffset rest (prefixOffset + 1) (node.traverse c)
      (v.checkNode n inputOffset prefixOffset node st)

/-- One turn of the loop over the code points. -/
def tokenizeAt (normalized : List UInt8) (results : Nat → BestTokenization) (inputOffset : Nat) :
    Nat → BestTokenization :=
  let rest := normalized.drop inputOffset
  let n := nextLen rest
  let st := v.traverseMatcher n inputOffset rest.tail (inputOffset + 1)
    (v.tokenMatcher.traverse (rest.headD 0)) (results, false)
  if st.2 then st.1
  else
    challenge st.1 (inputOffset + n)
      ⟨v.tokenUnk, inputOffset, (st.1 inputOffset).score + v.unknownTokenScore⟩

/-- The loop over the code points. -/
def tokenizeFrom (normalized : List UInt8) : Nat → Nat → (Nat → BestTokenization) →
    Nat → BestTokenization
  | 0, _, results => results
  | fuel + 1, inputOffset, results =>
    if inputOffset < normalized.length then
      tokenizeFrom normalized fuel (inputOffset + nextLen (normalized.drop inputOffset))
        (v.tokenizeAt normalized results inputOffset)
    else results

/-- `tokenization_results` at the beginning. -/
def noResults : Nat → BestTokenization :=
  Function.update (fun _ => ⟨v.tokenUnk, 0, -dblMax⟩) 0 ⟨v.tokenUnk, 0, 0⟩

/-- The loop back from the end. The reference of the loop is the last entry, so that each step
writes there what it goes on to. -/
def backtrack (inputLen : Nat) : Nat → Bool → (Nat → BestTokenization) → List Int →
    Option (List Int)
  | 0, _, _, _ => none
  | fuel + 1, isPrevUnknown, results, output =>
    let tokenization := results inputLen
    let isUnknown := tokenization.label == v.tokenUnk
    let output := if isPrevUnknown && isUnknown then output else output ++ [tokenization.label]
    if tokenization.origin = 0 then some output
    else
      backtrack inputLen fuel isUnknown
        (Function.update results inputLen (results tokenization.origin)) output

/-- `tokenize` of a text that is normalized. -/
def tokenize (normalized : List UInt8) (output : List Int) : Option (List Int) :=
  if normalized = [] then some output
  else
    let results := v.tokenizeFrom normalized normalized.length 0 v.noResults
    (v.backtrack normalized.length normalized.length false results []).map fun ids =>
      output ++ ids.reverse

end Vocab

/-! ### Code points -/

theorem IsChar.whole (h : IsChar w) : Whole w :=
  ⟨[w], fun _ hc => List.mem_singleton.1 hc ▸ h, List.append_nil w⟩

theorem whole_nil : Whole [] := ⟨[], fun _ hc => absurd hc List.not_mem_nil, rfl⟩

theorem Whole.append (h : Whole a) (h' : Whole b) : Whole (a ++ b) := by
  obtain ⟨cs, hcs, rfl⟩ := h
  obtain ⟨ds, hds, rfl⟩ := h'
  refine ⟨cs ++ ds, fun c hc => ?_, List.flatten_append⟩
  rcases List.mem_append.1 hc with hc | hc
  · exact hcs c hc
  · exact hds c hc

/-- A code point is read off its first byte. -/
theorem IsChar.nextLen_eq (h : IsChar w) (rest : List UInt8) :
    nextLen (w ++ rest) = w.length := by
  obtain ⟨hne, hlen⟩ := h
  have hhead : (w ++ rest).headD 0 = w.headD 0 := by
    cases w with
    | nil => exact absurd rfl hne
    | cons c w => rfl
  rw [nextLen, hhead, hlen, List.length_append]
  omega

theorem Whole.uncons (h : Whole text) (hne : text ≠ []) :
    ∃ w rest, text = w ++ rest ∧ IsChar w ∧ Whole rest := by
  obtain ⟨cs, hcs, rfl⟩ := h
  cases cs with
  | nil => exact absurd rfl hne
  | cons c cs =>
    refine ⟨c, cs.flatten, rfl, hcs c List.mem_cons_self, cs, fun d hd => ?_, rfl⟩
    exact hcs d (List.mem_cons_of_mem _ hd)

/-- What is left of whole code points after some of them is whole. -/
theorem Whole.cancel (h : Whole a) (hab : Whole (a ++ b)) : Whole b := by
  obtain ⟨cs, hcs, rfl⟩ := h
  induction cs with
  | nil => exact hab
  | cons c cs ih =>
    have hc := hcs c List.mem_cons_self
    rw [List.flatten_cons, List.append_assoc] at hab
    have hne : c ++ (cs.flatten ++ b) ≠ [] := by
      intro hnil
      exact hc.1 (List.append_eq_nil_iff.1 hnil).1
    obtain ⟨w, rest, heq, hw, hrest⟩ := hab.uncons hne
    have hlen : c.length = w.length := by
      rw [← hc.nextLen_eq (cs.flatten ++ b), heq, hw.nextLen_eq rest]
    obtain ⟨rfl, rfl⟩ := List.append_inj heq hlen
    exact ih (fun d hd => hcs d (List.mem_cons_of_mem _ hd)) hrest

theorem unicodeLenUtf8_eq (b : UInt8) : unicodeLenUtf8 b =
    if b.toNat < 0xC0 then 1 else if b.toNat < 0xE0 then 2
    else if b.toNat < 0xF0 then 3 else 4 := by
  have htable : ∀ k < 16, [1, 1, 1, 1, 1, 1, 1, 1, 1, 1, 1, 1, 2, 2, 3, 4].getD k 1 =
      if k < 12 then 1 else if k < 14 then 2 else if k < 15 then 3 else 4 := by decide
  have hlt := b.toNat_lt
  rw [unicodeLenUtf8, htable _ (by omega)]
  split_ifs <;> omega

/-- The bytes of a character say their number. -/
theorem isChar_utf8 (ch : Char) : IsChar (String.utf8EncodeChar ch) := by
  have hbytes := utf8Bytes_char ch
  have hlen := congrArg List.length hbytes
  rw [List.length_map, utf8Bytes, List.length_cons, length_tailBytes] at hlen
  cases hw : String.utf8EncodeChar ch with
  | nil =>
    rw [hw] at hlen
    exact absurd hlen (by simp)
  | cons b w =>
    rw [hw, List.map_cons, utf8Bytes] at hbytes
    have hlead := (List.cons.inj hbytes).1
    rw [hw] at hlen
    refine ⟨List.cons_ne_nil b w, ?_⟩
    rw [List.headD_cons, hlen, unicodeLenUtf8_eq, hlead]
    have hvalid : ch.toNat < 0x110000 := by
      have hv := ch.valid
      change ch.val.toNat < 0x110000
      rcases hv with h | h <;> omega
    rw [leadByte, extraBytes]
    have htable : [0, 0xC0, 0xE0, 0xF0].getD 0 0 = 0 ∧ [0, 0xC0, 0xE0, 0xF0].getD 1 0 = 0xC0 ∧
        [0, 0xC0, 0xE0, 0xF0].getD 2 0 = 0xE0 ∧ [0, 0xC0, 0xE0, 0xF0].getD 3 0 = 0xF0 := by decide
    split_ifs <;> omega

/-- Texts in UTF-8 are made of whole code points. -/
theorem whole_encodeUtf8 (s : List Char) : Whole (encodeUtf8 s) := by
  refine ⟨s.map String.utf8EncodeChar, fun c hc => ?_, ?_⟩
  · obtain ⟨ch, _, rfl⟩ := List.mem_map.1 hc
    exact isChar_utf8 ch
  · rw [encodeUtf8, List.flatMap_def]

/-! What the unigram tokenizer finds is a segmentation of the text with the greatest score. -/

/-! ### Segmentations -/

/-- What a part of a text is taken for. -/
inductive Piece where
  | token (i : Nat)
  | unknown

namespace Vocab
variable {v : Vocab}

/-- The text of a token that is matched. -/
def Matches (v : Vocab) (w : List UInt8) (i : Nat) : Prop :=
  ∃ x, v.tokens[i]? = some x ∧ x.matched = true ∧ x.text = w

/-- A part of a text is a token, or a code point that is not one. -/
def Covers (v : Vocab) (w : List UInt8) : Piece → Prop
  | .token i => v.Matches w i
  | .unknown => IsChar w ∧ ∀ i, ¬ v.Matches w i

def pieceId (v : Vocab) : Piece → Int
  | .token i => i
  | .unknown => v.tokenUnk

def pieceScore (v : Vocab) : Piece → ℚ
  | .token i => v.tokenScore i
  | .unknown => v.unknownTokenScore

/-- The parts of a text, with what they are taken for. -/
def IsSegmentation (v : Vocab) (text : List UInt8) (xs : List (List UInt8 × Piece)) : Prop :=
  (xs.map Prod.fst).flatten = text ∧ ∀ x ∈ xs, v.Covers x.1 x.2

def total (v : Vocab) (xs : List (List UInt8 × Piece)) : ℚ :=
  (xs.map fun x => v.pieceScore x.2).sum

def ids (v : Vocab) (xs : List (List UInt8 × Piece)) : List Int :=
  xs.map fun x => v.pieceId x.2

end Vocab

/-- One more token in front, where a run of unknown ones is one. -/
def merge (unk x : Int) (ids : List Int) : List Int :=
  if x = unk ∧ ids.head? = some unk then ids else x :: ids

/-- Runs of unknown tokens are merged. -/
def mergeUnknown (unk : Int) (ids : List Int) : List Int := ids.foldr (merge unk) []

namespace Vocab
variable {v : Vocab} {text : List UInt8}

/-! ### The matcher -/

theorem mem_entries {id : Int} : (w, id) ∈ v.entries ↔ ∃ i, id = (i : Nat) ∧ v.Matches w i := by
  rw [entries, List.mem_map]
  constructor
  · rintro ⟨⟨x, i⟩, hx, heq⟩
    obtain ⟨hmem, hmatched⟩ := List.mem_filter.1 hx
    rw [List.mem_zipIdx_iff_getElem?] at hmem
    obtain ⟨hw, hid⟩ := Prod.mk.inj heq
    exact ⟨i, hid.symm, x, hmem, hmatched, hw⟩
  · rintro ⟨i, rfl, x, hx, hmatched, rfl⟩
    exact ⟨(x, i), List.mem_filter.2 ⟨List.mem_zipIdx_iff_getElem?.2 hx, hmatched⟩, rfl⟩

theorem entries_nodup (v : Vocab) : (v.entries.map Prod.fst).Nodup := by
  have htexts : v.entries.map Prod.fst =
      (v.tokens.zipIdx.filter fun x => x.1.matched).map fun x => x.1.text := by
    rw [entries, List.map_map]
    rfl
  have hall : (v.tokens.zipIdx.map fun x => x.1.text) = v.tokens.map TokenData.text := by
    have hfst := congrArg (List.map TokenData.text) (List.zipIdx_map_fst 0 v.tokens)
    rwa [List.map_map] at hfst
  rw [htexts]
  refine List.Nodup.sublist (List.filter_sublist.map _) ?_
  rw [hall]
  exact v.nodup

theorem get?_tokenMatcher {id : Int} :
    v.tokenMatcher.get? w = some id ↔ ∃ i, id = (i : Nat) ∧ v.Matches w i := by
  rw [← mem_entries]
  exact ⟨Trie.mem_of_get?_ofList, Trie.get?_ofList v.entries_nodup⟩

/-- The edge for a prefix that is a token. -/
def edgeOf (v : Vocab) (o : Nat) (w : List UInt8) : List (Edge Int ℚ) :=
  (v.tokenMatcher.get? w).toList.map fun id => ⟨o + w.length, id, v.tokenScore id⟩

/-- The edges for the prefixes from one on, with the rest of the text. -/
def edgesFrom (v : Vocab) (o : Nat) : List UInt8 → List UInt8 → List (Edge Int ℚ)
  | [], w => v.edgeOf o w
  | c :: rest, w => v.edgeOf o w ++ edgesFrom v o rest (w ++ [c])

theorem mem_edgeOf : e ∈ v.edgeOf o w ↔ ∃ i, v.Matches w i ∧
    e = ⟨o + w.length, v.pieceId (.token i), v.pieceScore (.token i)⟩ := by
  rw [edgeOf, List.mem_map]
  simp only [Option.mem_toList, get?_tokenMatcher]
  constructor
  · rintro ⟨id, ⟨i, rfl, hi⟩, rfl⟩
    exact ⟨i, hi, rfl⟩
  · rintro ⟨i, hi, rfl⟩
    exact ⟨i, ⟨i, rfl, hi⟩, rfl⟩

theorem mem_edgesFrom : e ∈ v.edgesFrom o rest w ↔ ∃ u, u <+: rest ∧ e ∈ v.edgeOf o (w ++ u) := by
  induction rest generalizing w with
  | nil =>
    rw [edgesFrom]
    simp
  | cons c rest ih =>
    rw [edgesFrom, List.mem_append, ih]
    constructor
    · rintro (h | ⟨u, hu, h⟩)
      · exact ⟨[], List.nil_prefix, by rwa [List.append_nil]⟩
      · refine ⟨c :: u, List.cons_prefix_cons.2 ⟨rfl, hu⟩, ?_⟩
        rwa [List.append_assoc, List.singleton_append] at h
    · rintro ⟨u, hu, h⟩
      cases u with
      | nil =>
        rw [List.append_nil] at h
        exact .inl h
      | cons d u =>
        obtain ⟨rfl, hu'⟩ := List.cons_prefix_cons.1 hu
        refine .inr ⟨u, hu', ?_⟩
        rwa [List.append_assoc, List.singleton_append]

theorem edgesFrom_dead (h : v.tokenMatcher.walk w = none) : v.edgesFrom o rest w = [] := by
  have hdead : ∀ u, v.edgeOf o (w ++ u) = [] := by
    intro u
    rw [edgeOf, Trie.get?, Trie.walk_append, h]
    rfl
  rw [List.eq_nil_iff_forall_not_mem]
  intro e he
  obtain ⟨u, _, he⟩ := mem_edgesFrom.1 he
  rw [hdead u] at he
  cases he

theorem checkNode_eq (hw : v.tokenMatcher.walk w = some node)
    (st : (Nat → BestTokenization) × Bool) :
    v.checkNode n o (o + w.length) node st = ((v.edgeOf o w).foldl (relax o) st.1,
      st.2 || (v.edgeOf o w).any fun e => e.target - o == n) := by
  have hget : v.tokenMatcher.get? w = node.value := by
    rw [Trie.get?, hw, Option.bind_some]
  rw [checkNode, edgeOf, hget]
  cases node.value with
  | none => rw [Option.elim_none, Option.toList_none, List.map_nil, List.foldl_nil, List.any_nil,
      Bool.or_false]
  | some id =>
    rw [Option.elim_some, Option.toList_some, List.map_singleton, List.foldl_cons, List.foldl_nil,
      List.any_cons, List.any_nil, Bool.or_false]
    rfl

/-- The loop down the matcher goes along the edges of the tokens that begin there. -/
theorem traverseMatcher_eq (rest : List UInt8) (w : List UInt8)
    (st : (Nat → BestTokenization) × Bool) :
    v.traverseMatcher n o rest (o + w.length) (v.tokenMatcher.walk w) st =
      ((v.edgesFrom o rest w).foldl (relax o) st.1,
        st.2 || (v.edgesFrom o rest w).any fun e => e.target - o == n) := by
  induction rest generalizing w st with
  | nil =>
    cases hw : v.tokenMatcher.walk w with
    | none =>
      rw [edgesFrom_dead hw, traverseMatcher, List.foldl_nil, List.any_nil, Bool.or_false]
    | some node =>
      rw [traverseMatcher, edgesFrom, checkNode_eq hw]
  | cons c rest ih =>
    cases hw : v.tokenMatcher.walk w with
    | none =>
      rw [edgesFrom_dead hw, traverseMatcher, List.foldl_nil, List.any_nil, Bool.or_false]
    | some node =>
      have hlen : o + w.length + 1 = o + (w ++ [c]).length := by
        rw [List.length_append, List.length_singleton, Nat.add_assoc]
      rw [traverseMatcher, Trie.traverse_of_walk hw, hlen, ih, checkNode_eq hw, edgesFrom,
        List.foldl_append, List.any_append, Bool.or_assoc]

/-- The edges out of an offset: its tokens, and an unknown one where no token is the code point. -/
def edgesAt (v : Vocab) (text : List UInt8) (o : Nat) : List (Edge Int ℚ) :=
  let rest := text.drop o
  let es := v.edgesFrom o rest.tail [rest.headD 0]
  if es.any fun e => e.target - o == nextLen rest then es
  else es ++ [⟨o + nextLen rest, v.tokenUnk, v.unknownTokenScore⟩]

theorem tokenizeAt_eq (text : List UInt8) (results : Nat → BestTokenization) (o : Nat) :
    v.tokenizeAt text results o = relaxAll (v.edgesAt text) results o := by
  have htrav := traverseMatcher_eq (v := v) (n := nextLen (text.drop o)) (o := o)
    (text.drop o).tail [(text.drop o).headD 0] (results, false)
  rw [Trie.walk_singleton, List.length_singleton, Bool.false_or] at htrav
  rw [tokenizeAt, relaxAll, edgesAt, htrav]
  split_ifs with h
  · rfl
  · rw [List.foldl_append, List.foldl_cons, List.foldl_nil]
    rfl

/-! ### Edges and pieces -/

theorem edgesFrom_target (he : e ∈ v.edgesFrom o rest w) :
    ∃ u i, u <+: rest ∧ v.Matches (w ++ u) i ∧
      e = ⟨o + (w ++ u).length, v.pieceId (.token i), v.pieceScore (.token i)⟩ := by
  obtain ⟨u, hu, he⟩ := mem_edgesFrom.1 he
  obtain ⟨i, hi, rfl⟩ := mem_edgeOf.1 he
  exact ⟨u, i, hu, hi, rfl⟩

/-- Whether one of the tokens is the code point. -/
theorem any_edgesFrom_iff (hw : IsChar w) (hrest : text.drop o = w ++ rest) :
    ((v.edgesFrom o (text.drop o).tail [(text.drop o).headD 0]).any fun e =>
      e.target - o == nextLen (text.drop o)) = true ↔ ∃ i, v.Matches w i := by
  obtain ⟨c, u, rfl⟩ := List.exists_cons_of_ne_nil hw.1
  have hlen : nextLen (text.drop o) = (c :: u).length := by
    rw [hrest, hw.nextLen_eq]
  rw [hlen, hrest, List.any_eq_true]
  simp only [List.cons_append, List.headD_cons, List.tail_cons, beq_iff_eq]
  constructor
  · rintro ⟨e, he, htarget⟩
    obtain ⟨u', i, hu', hi, rfl⟩ := edgesFrom_target he
    rw [Nat.add_sub_cancel_left] at htarget
    have hsame : u' = u := by
      have hlen' : u'.length = u.length := by
        simpa using htarget
      exact List.IsPrefix.eq_of_length_le
        (List.prefix_of_prefix_length_le hu' (List.prefix_append u rest) hlen'.le) hlen'.ge
    rw [hsame] at hi
    exact ⟨i, hi⟩
  · rintro ⟨i, hi⟩
    refine ⟨_, mem_edgesFrom.2 ⟨u, List.prefix_append u rest, mem_edgeOf.2 ⟨i, hi, rfl⟩⟩, ?_⟩
    rw [Nat.add_sub_cancel_left]
    rfl

theorem Matches.ne_nil (h : v.Matches w i) : w ≠ [] := by
  obtain ⟨x, hx, _, rfl⟩ := h
  exact v.nonempty x (List.mem_of_getElem? hx)

theorem Matches.whole (h : v.Matches w i) : Whole w := by
  obtain ⟨x, hx, _, rfl⟩ := h
  exact v.whole x (List.mem_of_getElem? hx)

theorem mem_tokenEdges (hne : text ≠ []) :
    e ∈ v.edgesFrom o text.tail [text.headD 0] ↔ ∃ w i, w <+: text ∧ v.Matches w i ∧
      e = ⟨o + w.length, v.pieceId (.token i), v.pieceScore (.token i)⟩ := by
  obtain ⟨c, rest, rfl⟩ := List.exists_cons_of_ne_nil hne
  rw [List.headD_cons, List.tail_cons]
  constructor
  · intro he
    obtain ⟨u, i, hu, hi, rfl⟩ := edgesFrom_target he
    exact ⟨c :: u, i, List.cons_prefix_cons.2 ⟨rfl, hu⟩, hi, rfl⟩
  · rintro ⟨w, i, hw, hi, rfl⟩
    obtain ⟨d, u, rfl⟩ := List.exists_cons_of_ne_nil hi.ne_nil
    obtain ⟨rfl, hu⟩ := List.cons_prefix_cons.1 hw
    exact mem_edgesFrom.2 ⟨u, hu, mem_edgeOf.2 ⟨i, hi, rfl⟩⟩

/-- The edges out of an offset are the pieces that the rest of the text begins with. -/
theorem mem_edgesAt (ho : Whole (text.drop o)) (hne : text.drop o ≠ []) :
    e ∈ v.edgesAt text o ↔ ∃ w p, w <+: text.drop o ∧ v.Covers w p ∧
      e = ⟨o + w.length, v.pieceId p, v.pieceScore p⟩ := by
  obtain ⟨w, rest, hrest, hw, _⟩ := ho.uncons hne
  have hany := any_edgesFrom_iff (v := v) hw hrest
  have hnext : nextLen (text.drop o) = w.length := by
    rw [hrest, hw.nextLen_eq]
  have hpre : w <+: text.drop o := hrest ▸ List.prefix_append w rest
  have hchar : ∀ w', IsChar w' → w' <+: text.drop o → w' = w := by
    rintro w' hw' ⟨rest', hrest'⟩
    have hlen : w'.length = w.length := by
      rw [← hnext, ← hrest', hw'.nextLen_eq]
    exact (List.append_inj (hrest'.trans hrest) hlen).1
  rw [edgesAt]
  by_cases hfound : ∃ i, v.Matches w i
  · rw [if_pos (hany.2 hfound), mem_tokenEdges hne]
    constructor
    · rintro ⟨u, i, hu, hi, rfl⟩
      exact ⟨u, .token i, hu, hi, rfl⟩
    · rintro ⟨u, p, hu, hp, rfl⟩
      cases p with
      | token i => exact ⟨u, i, hu, hp, rfl⟩
      | unknown =>
        obtain ⟨i, hi⟩ := hfound
        rw [← hchar u hp.1 hu] at hi
        exact absurd hi (hp.2 i)
  · rw [if_neg fun h => hfound (hany.1 h), List.mem_append, mem_tokenEdges hne,
      List.mem_singleton, hnext]
    constructor
    · rintro (⟨u, i, hu, hi, rfl⟩ | rfl)
      · exact ⟨u, .token i, hu, hi, rfl⟩
      · exact ⟨w, .unknown, hpre, ⟨hw, fun i hi => hfound ⟨i, hi⟩⟩, rfl⟩
    · rintro ⟨u, p, hu, hp, rfl⟩
      cases p with
      | token i => exact .inl ⟨u, i, hu, hp, rfl⟩
      | unknown =>
        obtain rfl := hchar u hp.1 hu
        exact .inr rfl

theorem Covers.ne_nil (h : v.Covers w p) : w ≠ [] := by
  cases p with
  | token i => exact Matches.ne_nil h
  | unknown => exact h.1.1

theorem Covers.whole (h : v.Covers w p) : Whole w := by
  cases p with
  | token i => exact Matches.whole h
  | unknown => exact h.1.whole

/-! ### The offsets of the code points -/

def offsets (text : List UInt8) : Nat → Nat → List Nat
  | 0, _ => []
  | fuel + 1, o =>
    if o < text.length then o :: offsets text fuel (o + nextLen (text.drop o)) else []

theorem tokenizeFrom_eq (text : List UInt8) (fuel o : Nat) (results : Nat → BestTokenization) :
    v.tokenizeFrom text fuel o results =
      (offsets text fuel o).foldl (relaxAll (v.edgesAt text)) results := by
  induction fuel generalizing o results with
  | zero => rfl
  | succ fuel ih =>
    rw [tokenizeFrom, offsets]
    split_ifs
    · rw [ih, List.foldl_cons, tokenizeAt_eq]
    · rfl

theorem le_of_mem_offsets (h : q ∈ offsets text fuel o) : o ≤ q := by
  induction fuel generalizing o with
  | zero => cases h
  | succ fuel ih =>
    rw [offsets] at h
    split_ifs at h
    · rcases List.mem_cons.1 h with rfl | h
      · exact le_rfl
      · exact (Nat.le_add_right o _).trans (ih h)
    · cases h

theorem offsets_sorted (text : List UInt8) (fuel o : Nat) :
    (offsets text fuel o).Pairwise (· < ·) := by
  induction fuel generalizing o with
  | zero => exact List.Pairwise.nil
  | succ fuel ih =>
    rw [offsets]
    split_ifs with ho
    · refine List.Pairwise.cons (fun q hq => ?_) (ih _)
      have hle := le_of_mem_offsets hq
      have hpos : 0 < nextLen (text.drop o) := by
        apply nextLen_pos
        rw [ne_eq, List.drop_eq_nil_iff]
        omega
      omega
    · exact List.Pairwise.nil

/-- At an offset a code point begins, and the text in front of it is whole. -/
theorem split_of_mem_offsets (ho : Whole (text.drop o)) (h : q ∈ offsets text fuel o) :
    ∃ a, Whole a ∧ text.drop o = a ++ text.drop q ∧ q = o + a.length ∧ q < text.length := by
  induction fuel generalizing o with
  | zero => cases h
  | succ fuel ih =>
    rw [offsets] at h
    split_ifs at h with hlt
    · rcases List.mem_cons.1 h with rfl | h
      · exact ⟨[], whole_nil, rfl, rfl, hlt⟩
      · have hne : text.drop o ≠ [] := by
          rw [ne_eq, List.drop_eq_nil_iff]
          omega
        obtain ⟨w, rest, hrest, hw, hwhole⟩ := ho.uncons hne
        have hnext : text.drop (o + nextLen (text.drop o)) = rest := by
          rw [← List.drop_drop, hrest, hw.nextLen_eq, List.drop_left]
        have hlen : nextLen (text.drop o) = w.length := by
          rw [hrest, hw.nextLen_eq]
        rw [← hnext] at hwhole
        obtain ⟨a, ha, hdrop, hq, hqlt⟩ := ih hwhole h
        refine ⟨w ++ a, hw.whole.append ha, ?_, ?_, hqlt⟩
        · rw [hrest, ← hnext, hdrop, List.append_assoc]
        · rw [hq, hlen, List.length_append, Nat.add_assoc]
    · cases h

/-- Where a code point begins there is an offset. -/
theorem mem_offsets {cs : List (List UInt8)} (hcs : ∀ c ∈ cs, IsChar c)
    (ho : text.drop o = cs.flatten ++ rest) (hrest : rest ≠ []) (hfuel : cs.length < fuel) :
    o + cs.flatten.length ∈ offsets text fuel o := by
  induction cs generalizing o fuel with
  | nil =>
    obtain ⟨fuel, rfl⟩ := Nat.exists_eq_succ_of_ne_zero (Nat.ne_of_gt hfuel)
    have hlt : o < text.length := by
      by_contra hge
      rw [List.drop_eq_nil_of_le (by omega)] at ho
      exact hrest ho.symm
    rw [offsets, if_pos hlt]
    exact List.mem_cons_self
  | cons c cs ih =>
    obtain ⟨fuel, rfl⟩ := Nat.exists_eq_succ_of_ne_zero (Nat.ne_of_gt (Nat.zero_lt_of_lt hfuel))
    have hc := hcs c List.mem_cons_self
    rw [List.flatten_cons, List.append_assoc] at ho
    have hlt : o < text.length := by
      by_contra hge
      rw [List.drop_eq_nil_of_le (by omega)] at ho
      exact hc.1 (List.append_eq_nil_iff.1 ho.symm).1
    have hdrop : text.drop (o + c.length) = cs.flatten ++ rest := by
      rw [← List.drop_drop, ho, List.drop_left]
    rw [offsets, if_pos hlt, ho, hc.nextLen_eq, List.flatten_cons, List.length_append,
      ← Nat.add_assoc]
    apply List.mem_cons_of_mem
    exact ih (fun d hd => hcs d (List.mem_cons_of_mem _ hd)) hdrop
      (Nat.lt_of_succ_lt_succ hfuel)

theorem length_le_flatten {cs : List (List UInt8)} (hcs : ∀ c ∈ cs, IsChar c) :
    cs.length ≤ cs.flatten.length := by
  induction cs with
  | nil => exact le_rfl
  | cons c cs ih =>
    have hc := List.length_pos_iff.2 (hcs c List.mem_cons_self).1
    have hcs' := ih fun d hd => hcs d (List.mem_cons_of_mem _ hd)
    rw [List.flatten_cons, List.length_append, List.length_cons]
    omega

/-- All the offsets of a text. -/
abbrev allOffsets (text : List UInt8) : List Nat := offsets text text.length 0

theorem mem_allOffsets (ha : Whole a) (htext : text = a ++ b) (hb : b ≠ []) :
    a.length ∈ allOffsets text := by
  obtain ⟨cs, hcs, rfl⟩ := ha
  have hlen := length_le_flatten hcs
  have hpos := List.length_pos_iff.2 hb
  have hdrop : text.drop 0 = cs.flatten ++ b := htext
  have hmem : 0 + cs.flatten.length ∈ offsets text text.length 0 := by
    apply mem_offsets hcs hdrop hb
    rw [htext, List.length_append]
    omega
  rwa [Nat.zero_add] at hmem

/-- An offset splits a text into whole parts. -/
theorem split_of_mem (ht : Whole text) (ho : o ∈ allOffsets text) :
    ∃ a, Whole a ∧ text = a ++ text.drop o ∧ o = a.length ∧ o < text.length := by
  obtain ⟨a, ha, hdrop, hlen, hlt⟩ := split_of_mem_offsets (o := 0) ht ho
  rw [Nat.zero_add] at hlen
  exact ⟨a, ha, hdrop, hlen, hlt⟩

theorem drop_of_mem (ht : Whole text) (ho : o ∈ allOffsets text) :
    Whole (text.drop o) ∧ text.drop o ≠ [] := by
  obtain ⟨a, ha, hdrop, _, hlt⟩ := split_of_mem ht ho
  constructor
  · apply ha.cancel
    rwa [← hdrop]
  · rw [ne_eq, List.drop_eq_nil_iff]
    omega

theorem edgesAt_forward (ht : Whole text) (ho : o ∈ allOffsets text)
    (he : e ∈ v.edgesAt text o) : o < e.target := by
  obtain ⟨hwhole, hne⟩ := drop_of_mem ht ho
  obtain ⟨w, p, _, hp, rfl⟩ := (mem_edgesAt hwhole hne).1 he
  exact Nat.lt_add_of_pos_right (List.length_pos_iff.2 hp.ne_nil)

/-! ### Segmentations and paths -/

theorem IsSegmentation.snoc (h : v.IsSegmentation a xs) (hp : v.Covers w p) :
    v.IsSegmentation (a ++ w) (xs ++ [(w, p)]) := by
  constructor
  · rw [List.map_append, List.flatten_append, h.1, List.map_singleton, List.flatten_singleton]
  · intro x hx
    rcases List.mem_append.1 hx with hx | hx
    · exact h.2 x hx
    · rw [List.mem_singleton.1 hx]
      exact hp

theorem IsSegmentation.whole (h : v.IsSegmentation a xs) : Whole a := by
  obtain ⟨rfl, hall⟩ := h
  induction xs with
  | nil => exact whole_nil
  | cons x xs ih =>
    rw [List.map_cons, List.flatten_cons]
    exact (hall x List.mem_cons_self).whole.append
      (ih fun y hy => hall y (List.mem_cons_of_mem _ hy))

theorem total_snoc (xs : List (List UInt8 × Piece)) (w : List UInt8) (p : Piece) :
    v.total (xs ++ [(w, p)]) = v.total xs + v.pieceScore p := by
  rw [total, total, List.map_append, List.sum_append, List.map_singleton, List.sum_singleton]

/-- A path is a segmentation of the text up to where it leads. -/
theorem path_segmentation (ht : Whole text)
    (hp : Path (v.edgesAt text) (allOffsets text) q es) :
    ∃ xs, v.IsSegmentation (text.take q) xs ∧ v.total xs = weight es ∧
      v.ids xs = es.map Edge.label := by
  induction hp with
  | nil => exact ⟨[], ⟨rfl, fun _ hx => absurd hx List.not_mem_nil⟩, rfl, rfl⟩
  | @snoc o es e _ ho he ih =>
    obtain ⟨xs, hxs, htotal, hids⟩ := ih
    obtain ⟨hwhole, hne⟩ := drop_of_mem ht ho
    obtain ⟨w, p, hw, hp, rfl⟩ := (mem_edgesAt hwhole hne).1 he
    have htake : text.take (o + w.length) = text.take o ++ w := by
      rw [List.take_add, ← List.prefix_iff_eq_take.1 hw]
    refine ⟨xs ++ [(w, p)], ?_, ?_, ?_⟩
    · rw [htake]
      exact hxs.snoc hp
    · rw [total_snoc, weight_snoc, htotal]
    · rw [ids, List.map_append, ← ids, hids, List.map_append]
      rfl

/-- A segmentation of a part of the text that it begins with is a path. -/
theorem segmentation_path (ht : Whole text) (hx : v.IsSegmentation a xs) (htext : text = a ++ b) :
    ∃ es, Path (v.edgesAt text) (allOffsets text) a.length es ∧ weight es = v.total xs := by
  induction xs using List.reverseRecOn generalizing a b with
  | nil =>
    obtain ⟨rfl, _⟩ := hx
    exact ⟨[], .nil, rfl⟩
  | append_singleton xs x ih =>
    obtain ⟨w, p⟩ := x
    obtain ⟨hflat, hall⟩ := hx
    rw [List.map_append, List.flatten_append, List.map_singleton, List.flatten_singleton] at hflat
    subst hflat
    have hinit : v.IsSegmentation (xs.map Prod.fst).flatten xs :=
      ⟨rfl, fun y hy => hall y (List.mem_append_left _ hy)⟩
    have hp : v.Covers w p := hall (w, p) (List.mem_append_right _ List.mem_cons_self)
    generalize (xs.map Prod.fst).flatten = a at htext hinit
    rw [List.append_assoc] at htext
    obtain ⟨es, hes, hweight⟩ := ih hinit htext
    have hne : w ++ b ≠ [] := fun hnil => hp.ne_nil (List.append_eq_nil_iff.1 hnil).1
    have ho := mem_allOffsets hinit.whole htext hne
    obtain ⟨hwhole, hdrop⟩ := drop_of_mem ht ho
    have hpre : w <+: text.drop a.length := by
      rw [htext, List.drop_left]
      exact List.prefix_append w b
    refine ⟨es ++ [⟨a.length + w.length, v.pieceId p, v.pieceScore p⟩], ?_, ?_⟩
    · rw [List.length_append]
      exact .snoc hes ho ((mem_edgesAt hwhole hdrop).2 ⟨w, p, hpre, hp, rfl⟩)
    · rw [weight_snoc, total_snoc, hweight]

/-! ### Scores -/

theorem fltMax_nonneg : 0 ≤ fltMax := by
  unfold fltMax
  norm_num

theorem minScore_ge (v : Vocab) : -fltMax ≤ v.minScore := by
  have hfold : ∀ (xs : List TokenData) (m : ℚ), -fltMax ≤ m → (∀ x ∈ xs, |x.score| ≤ fltMax) →
      -fltMax ≤ xs.foldl (fun m x => if x.normal then min m x.score else m) m := by
    intro xs
    induction xs with
    | nil => exact fun m hm _ => hm
    | cons x xs ih =>
      intro m hm hxs
      have hx := (abs_le.1 (hxs x List.mem_cons_self)).1
      apply ih _ _ fun y hy => hxs y (List.mem_cons_of_mem _ hy)
      dsimp only
      split_ifs
      · exact le_min hm hx
      · exact hm
  refine hfold v.tokens fltMax ?_ v.finite
  have hpos := fltMax_nonneg
  linarith

/-- No score is less than this. -/
def lowest : ℚ := -(fltMax + 10)

theorem lowest_le (v : Vocab) (p : Piece) : lowest ≤ v.pieceScore p := by
  have hpos := fltMax_nonneg
  cases p with
  | unknown =>
    have hmin := v.minScore_ge
    rw [pieceScore, unknownTokenScore, lowest]
    linarith
  | token i =>
    rw [pieceScore, tokenScore, lowest]
    cases hx : v.tokens[(i : Int).toNat]? with
    | none =>
      rw [Option.elim_none]
      linarith
    | some x =>
      rw [Option.elim_some]
      split_ifs
      · linarith
      · have hlow := (abs_le.1 (v.finite x (List.mem_of_getElem? hx))).1
        linarith

/-- A text can be taken code point by code point. -/
theorem exists_segmentation (v : Vocab) {cs : List (List UInt8)} (hcs : ∀ c ∈ cs, IsChar c) :
    ∃ xs, v.IsSegmentation cs.flatten xs ∧ cs.length * lowest ≤ v.total xs := by
  induction cs with
  | nil =>
    refine ⟨[], ⟨rfl, fun _ hx => absurd hx List.not_mem_nil⟩, ?_⟩
    rw [List.length_nil, Nat.cast_zero, zero_mul]
    exact le_rfl
  | cons c cs ih =>
    obtain ⟨xs, ⟨hflat, hall⟩, htotal⟩ := ih fun d hd => hcs d (List.mem_cons_of_mem _ hd)
    obtain ⟨p, hp⟩ : ∃ p, v.Covers c p := by
      by_cases h : ∃ i, v.Matches c i
      · obtain ⟨i, hi⟩ := h
        exact ⟨.token i, hi⟩
      · exact ⟨.unknown, hcs c List.mem_cons_self, fun i hi => h ⟨i, hi⟩⟩
    refine ⟨(c, p) :: xs, ⟨?_, ?_⟩, ?_⟩
    · rw [List.map_cons, List.flatten_cons, List.flatten_cons, hflat]
    · intro x hx
      rcases List.mem_cons.1 hx with rfl | hx
      · exact hp
      · exact hall x hx
    · have hlow := v.lowest_le p
      rw [total, List.map_cons, List.sum_cons, ← total, List.length_cons, Nat.cast_succ, add_mul,
        one_mul, add_comm]
      exact add_le_add hlow htotal

theorem neg_dblMax_lt {n : Nat} (h : n < 2 ^ 64) : -dblMax < n * lowest := by
  have hn : (n : ℚ) ≤ 2 ^ 64 := by exact_mod_cast h.le
  have hneg : lowest ≤ 0 := by
    have hpos := fltMax_nonneg
    rw [lowest]
    linarith
  have hle : 2 ^ 64 * lowest ≤ n * lowest := mul_le_mul_of_nonpos_right hn hneg
  have hbig : (2 : ℚ) ^ 200 ≤ 2 ^ 971 := pow_le_pow_right₀ one_le_two (by norm_num)
  refine lt_of_lt_of_le ?_ hle
  rw [dblMax, lowest, fltMax]
  generalize (2 : ℚ) ^ 971 = b at hbig ⊢
  norm_num at hbig ⊢
  linarith

/-! ### The way back -/

/-- The tokens go to the back of the output, which is turned round in the end. -/
theorem reverse_push (unk x : Int) (output : List Int) :
    (if (output.getLast? == some unk) && (x == unk) then output else output ++ [x]).reverse =
      merge unk x output.reverse := by
  have hcond : ((output.getLast? == some unk) && (x == unk)) = true ↔
      x = unk ∧ output.reverse.head? = some unk := by
    rw [Bool.and_eq_true, beq_iff_eq, beq_iff_eq, List.head?_reverse, and_comm]
  rw [merge]
  by_cases h : x = unk ∧ output.reverse.head? = some unk
  · have hpush := hcond.2 h
    rw [if_pos hpush, if_pos h]
  · have hpush := fun hp => h (hcond.1 hp)
    rw [if_neg hpush, if_neg h, List.reverse_concat]

theorem getLast?_push (unk x : Int) (output : List Int) :
    ((if (output.getLast? == some unk) && (x == unk) then output
      else output ++ [x]).getLast? == some unk) = (x == unk) := by
  by_cases h : ((output.getLast? == some unk) && (x == unk)) = true
  · rw [if_pos h]
    rw [Bool.and_eq_true] at h
    rw [h.1, h.2]
  · rw [if_neg h, List.getLast?_concat]
    rfl

/-- From a way in the table the loop goes back to the beginning. The entry at the end is overwritten
on the way, those in front of the way are as they were. -/
theorem backtrack_traced {table results : Nat → BestTokenization} {edges : Nat → List (Edge Int ℚ)}
    (hfwd : ∀ o ∈ os, ∀ e ∈ edges o, o < e.target) (hp : Traced edges os table q es)
    (hq : 0 < q) (hlen : q ≤ inputLen) (hfuel : q ≤ fuel) (hlast : results inputLen = table q)
    (hbefore : ∀ p < q, results p = table p) (output : List Int) :
    ∃ out, v.backtrack inputLen fuel (output.getLast? == some v.tokenUnk) results output =
      some out ∧
        out.reverse = (es.map Edge.label).foldr (merge v.tokenUnk) output.reverse := by
  induction hp generalizing fuel results output with
  | nil => exact absurd hq (Nat.lt_irrefl 0)
  | @snoc o es e hes ho he hcell ih =>
    obtain ⟨fuel, rfl⟩ : ∃ k, fuel = k + 1 := ⟨fuel - 1, by omega⟩
    have hto := hfwd o ho e he
    rw [hcell] at hlast
    have hlabel : (results inputLen).label = e.label := congrArg Cell.label hlast
    have horigin : (results inputLen).origin = o := congrArg Cell.origin hlast
    have hrev := reverse_push v.tokenUnk e.label output
    have hprev := getLast?_push v.tokenUnk e.label output
    rw [backtrack, hlabel, horigin]
    generalize (if (output.getLast? == some v.tokenUnk) && (e.label == v.tokenUnk) then output
      else output ++ [e.label]) = pushed at hrev hprev ⊢
    rw [List.map_append, List.foldr_append, List.map_singleton, List.foldr_cons, List.foldr_nil,
      ← hrev]
    by_cases hzero : o = 0
    · rw [if_pos hzero]
      refine ⟨pushed, rfl, ?_⟩
      rw [hes.eq_nil hfwd hzero, List.map_nil, List.foldr_nil]
    · rw [if_neg hzero, ← hprev]
      apply ih (Nat.pos_of_ne_zero hzero) (by omega) (by omega)
      · rw [Function.update_self, hbefore o hto]
      · intro p hp
        rw [Function.update_of_ne (by omega)]
        exact hbefore p (by omega)

/-- The table at the end, and a way in it to the end of the text. -/
theorem exists_traced (v : Vocab) (ht : Whole text) (hlen : text.length < 2 ^ 64) :
    let table := v.tokenizeFrom text text.length 0 v.noResults
    Settled (v.edgesAt text) (allOffsets text) v.noResults table ∧ (table 0).score = 0 ∧
      ∃ es, Traced (v.edgesAt text) (allOffsets text) table text.length es := by
  intro table
  have hfwd : ∀ o ∈ allOffsets text, ∀ e ∈ v.edgesAt text o, o < e.target :=
    fun o ho e he => edgesAt_forward ht ho he
  have hsettled : Settled (v.edgesAt text) (allOffsets text) v.noResults table := by
    have htable : table = (allOffsets text).foldl (relaxAll (v.edgesAt text)) v.noResults :=
      tokenizeFrom_eq text text.length 0 v.noResults
    rw [htable]
    exact settled hfwd (offsets_sorted text _ 0) v.noResults
  have hzero : (table 0).score = 0 := by
    rcases hsettled.origin 0 with h | ⟨o, ho, e, he, htarget, _⟩
    · rw [h, noResults, Function.update_self]
    · exact absurd (htarget ▸ hfwd o ho e he) (Nat.not_lt_zero o)
  -- up to every code point there is a path with a sum that is more than the start
  have hreached : ∀ a b, Whole a → text = a ++ b → a.length = 0 ∨
      table a.length ≠ v.noResults a.length := by
    rintro a b ⟨cs, hcs, rfl⟩ htext
    by_cases hne : cs.flatten.length = 0
    · exact .inl hne
    · obtain ⟨xs, hxs, htotal⟩ := v.exists_segmentation hcs
      obtain ⟨es, hes, hweight⟩ := segmentation_path ht hxs htext
      refine .inr (hsettled.reached hzero.ge hes ?_)
      have hcount := length_le_flatten hcs
      have hle := congrArg List.length htext
      rw [List.length_append] at hle
      rw [hweight, noResults, Function.update_of_ne hne]
      exact lt_of_lt_of_le (neg_dblMax_lt (by omega)) htotal
  refine ⟨hsettled, hzero, hsettled.traced hfwd (fun o ho => ?_) text.length ?_⟩
  · obtain ⟨a, ha, htext, rfl, _⟩ := split_of_mem ht ho
    exact hreached a _ ha htext
  · exact hreached text [] ht (List.append_nil text).symm

/-- The tokens of a text are those of a segmentation into tokens and unknown code points with the
greatest score, but for runs of unknown ones; the way back ends at the beginning. -/
theorem tokenize_optimal (v : Vocab) (ht : Whole text) (hne : text ≠ [])
    (hlen : text.length < 2 ^ 64) (output : List Int) :
    ∃ xs, v.IsSegmentation text xs ∧
      v.tokenize text output = some (output ++ mergeUnknown v.tokenUnk (v.ids xs)) ∧
      ∀ ys, v.IsSegmentation text ys → v.total ys ≤ v.total xs := by
  obtain ⟨hsettled, hzero, es, hes⟩ := v.exists_traced ht hlen
  obtain ⟨xs, hxs, htotal, hids⟩ := path_segmentation ht hes.path
  rw [List.take_length] at hxs
  have hpos := List.length_pos_iff.2 hne
  refine ⟨xs, hxs, ?_, fun ys hys => ?_⟩
  · obtain ⟨out, hout, hrev⟩ := backtrack_traced (v := v)
      (fun o ho e he => edgesAt_forward ht ho he) hes hpos le_rfl le_rfl rfl (fun _ _ => rfl) []
    have hprev : (([] : List Int).getLast? == some v.tokenUnk) = false := rfl
    rw [hprev] at hout
    rw [tokenize, if_neg hne]
    dsimp only
    rw [hout, Option.map_some, hrev, ← hids]
    rfl
  · obtain ⟨es', hes', hweight⟩ := segmentation_path ht hys (List.append_nil text).symm
    rw [← hweight, htotal, hes.weight_eq hzero]
    exact hsettled.le hzero.ge hes'

end Vocab

/-- The tokens `a` and `ab`, and one that is not matched. -/
def twoTokens : Vocab where
  tokens := [⟨[63], 0, false, false, false⟩, ⟨[97], -2, true, false, false⟩,
    ⟨[97, 98], -3, true, false, false⟩]
  tokenUnk := 0
  finite := by
    intro x hx
    have hbig : (3 : ℚ) ≤ fltMax := by
      unfold fltMax
      norm_num
    rcases List.mem_cons.1 hx with rfl | hx
    · simpa using Vocab.fltMax_nonneg
    · apply le_trans _ hbig
      simp only [List.mem_cons, List.not_mem_nil, or_false] at hx
      rcases hx with rfl | rfl <;> norm_num
  whole := by
    have hchar : ∀ c : UInt8, c.toNat < 0xC0 → IsChar [c] := by
      intro c hc
      refine ⟨List.cons_ne_nil c [], ?_⟩
      rw [List.headD_cons, unicodeLenUtf8_eq, if_pos hc, List.length_singleton]
    intro x hx
    simp only [List.mem_cons, List.not_mem_nil, or_false] at hx
    rcases hx with rfl | rfl | rfl
    · exact (hchar 63 (by decide)).whole
    · exact (hchar 97 (by decide)).whole
    · exact (hchar 97 (by decide)).whole.append (hchar 98 (by decide)).whole
  nonempty := by decide
  nodup := by decide

/-- `abc`, where `c` is not known. -/
theorem Vocab.tokenize_optimal_unknown : ∃ xs, twoTokens.IsSegmentation [97, 98, 99] xs ∧
    twoTokens.tokenize [97, 98, 99] [7] =
      some ([7] ++ mergeUnknown twoTokens.tokenUnk (twoTokens.ids xs)) ∧
    ∀ ys, twoTokens.IsSegmentation [97, 98, 99] ys → twoTokens.total ys ≤ twoTokens.total xs :=
  twoTokens.tokenize_optimal (whole_encodeUtf8 ['a', 'b', 'c']) (List.cons_ne_nil _ _)
    (by decide) [7]

end ActQuant.Tokenizer.Ugm
