import ActQuant.Grammar.Runs
import ActQuant.Grammar.Utf8Pieces
import ActQuant.Lib.Sweep

namespace ActQuant.Grammar
open Lib

/-! Generation under a grammar: the mask leaves the tokens that can be accepted. -/

/-- The code points of a candidate that are compared: up to a zero. -/
def Candidate.word (tok : Candidate) : List Nat := tok.rest.takeWhile (· ≠ 0)

theorem Candidate.word_zero {tok : Candidate} (h : tok.codePoint = 0) : tok.word = [] := by
  rw [tok.codePoint_eq] at h
  rw [Candidate.word]
  cases hr : tok.rest with
  | nil => rfl
  | cons chr chrs =>
    rw [hr, List.headD_cons] at h
    simp [h]

theorem Candidate.word_cons {tok : Candidate} (h : tok.codePoint ≠ 0) :
    tok.word = tok.codePoint :: tok.next.word := by
  have hpoint := tok.codePoint_eq
  rw [Candidate.word, Candidate.word, tok.rest_next]
  cases hr : tok.rest with
  | nil => simp [hpoint, hr] at h
  | cons chr chrs =>
    rw [hr, List.headD_cons] at hpoint
    rw [hpoint] at h ⊢
    simp [h]

namespace Rules
variable {G : Rules}

/-- What is unfinished behind a token may stand in front of a stack. -/
def Takes (G : Rules) (part : PartialUtf8) : Stack → Prop
  | [] => part.nRemain = 0
  | p :: _ => part.nRemain = 0 ∨ matchPartialChar (G.from p) part = some true

/-- A stack lets a candidate through. -/
def Admits (G : Rules) (stack : Stack) (tok : Candidate) : Prop :=
  ∃ stack', G.MovesAll stack tok.word stack' ∧ G.Takes tok.partialUtf8 stack'

theorem admits_zero (h : tok.codePoint = 0) :
    G.Admits stack tok ↔ G.Takes tok.partialUtf8 stack := by
  rw [Admits, Candidate.word_zero h]
  simp [MovesAll]

theorem not_admits_empty (h : tok.codePoint ≠ 0) : ¬ G.Admits [] tok := by
  rw [Admits, Candidate.word_cons h]
  intro hadmits
  obtain ⟨stack', ⟨mid, hmid, _⟩, _⟩ := hadmits
  cases hmid

theorem admits_class (hc : isClass (head (G.from p))) (h : tok.codePoint ≠ 0) :
    G.Admits (p :: rest) tok ↔ InClass (G.from p) tok.codePoint ∧
      ∃ stack, G.Expands (G.afterChar p rest) stack ∧ G.Admits stack tok.next := by
  rw [Admits, Candidate.word_cons h]
  constructor
  · intro hadmits
    obtain ⟨stack', ⟨mid, hmid, hall⟩, htakes⟩ := hadmits
    cases hmid with
    | char _ hin hexp => exact ⟨hin, mid, hexp, stack', hall, htakes⟩
  · intro hadmits
    obtain ⟨hin, mid, hexp, stack', hall, htakes⟩ := hadmits
    exact ⟨stack', ⟨mid, .char hc hin hexp, hall⟩, htakes⟩

/-- A candidate that is rejected in front of a class. -/
def Refused (es : List Element) (tok : Candidate) : Prop :=
  if tok.codePoint = 0 then
    tok.partialUtf8.nRemain ≠ 0 ∧ matchPartialChar es tok.partialUtf8 ≠ some true
  else ¬ InClass es tok.codePoint

/-- A candidate that is looked at again behind a class. -/
def Passed (es : List Element) (tok : Candidate) : Prop :=
  tok.codePoint ≠ 0 ∧ InClass es tok.codePoint

theorem mem_sortCandidate (hc : isClass (head es))
    (h : sortCandidate es (rejects, nextCandidates) tok = some (rejects', nextCandidates'))
    (x : Candidate) : (x ∈ rejects' ↔ x ∈ rejects ∨ x = tok ∧ Refused es tok) ∧
      (x ∈ nextCandidates' ↔ x ∈ nextCandidates ∨ x = tok.next ∧ Passed es tok) := by
  rw [sortCandidate] at h
  rw [Refused, Passed]
  by_cases hz : tok.codePoint = 0
  · by_cases hp : tok.partialUtf8.nRemain ≠ 0
    · simp only [hz, if_true, hp, ne_eq, not_false_eq_true, Option.map_eq_some_iff] at h ⊢
      obtain ⟨found, hfound, h⟩ := h
      cases found <;> cases h <;> simp [hfound]
    · simp only [hz, if_true, hp, if_false, Option.some.injEq, Prod.mk.injEq] at h ⊢
      simp [← h.1, ← h.2]
  · obtain ⟨found, hmatch, hfound⟩ := matchChar_eq hc tok.codePoint
    simp only [hz, if_false, hmatch, Option.map_some, Option.some.injEq] at h ⊢
    cases found with
    | false =>
      have hin : ¬ InClass es tok.codePoint := fun hin => by cases hfound.2 hin
      cases h
      simp [hin]
    | true =>
      have hin : InClass es tok.codePoint := hfound.1 rfl
      cases h
      simp [hin, hz, Candidate.next]

/-- The candidates a stack with a class at its top does not let through. -/
theorem not_admits_class (hc : isClass (head (G.from p))) :
    ¬ G.Admits (p :: rest) tok ↔ Refused (G.from p) tok ∨ Passed (G.from p) tok ∧
      ∀ stack, G.Expands (G.afterChar p rest) stack → ¬ G.Admits stack tok.next := by
  rw [Refused, Passed]
  by_cases hz : tok.codePoint = 0
  · simp [hz, admits_zero hz, Takes]
  · simp only [hz, if_false, admits_class hc hz, not_and, not_exists, ne_eq, not_false_eq_true,
      true_and]
    by_cases hin : InClass (G.from p) tok.codePoint
    · simp [hin]
    · simp [hin]

/-- Sorting the candidates in front of a class. -/
theorem mem_sortCandidates (hc : isClass (head es)) {candidates : List Candidate}
    (h : candidates.foldlM (sortCandidate es) (rejects, nextCandidates) =
      some (rejects', nextCandidates')) (x : Candidate) :
    (x ∈ rejects' ↔ x ∈ rejects ∨ x ∈ candidates ∧ Refused es x) ∧
      (x ∈ nextCandidates' ↔
        x ∈ nextCandidates ∨ ∃ tok ∈ candidates, x = tok.next ∧ Passed es tok) := by
  induction candidates generalizing rejects nextCandidates with
  | nil =>
    cases h
    simp
  | cons tok candidates ih =>
    rw [List.foldlM_cons] at h
    obtain ⟨⟨rejects₁, nextCandidates₁⟩, hfirst, hrest⟩ := Option.bind_eq_some_iff.1 h
    obtain ⟨hrejects, hnext⟩ := mem_sortCandidate hc hfirst x
    obtain ⟨hrejects', hnext'⟩ := ih hrest
    constructor
    · rw [hrejects', hrejects, or_assoc]
      apply or_congr_right
      constructor
      · intro hx
        cases hx with
        | inl hx => exact ⟨hx.1 ▸ .head _, hx.1 ▸ hx.2⟩
        | inr hx => exact ⟨.tail _ hx.1, hx.2⟩
      · intro hx
        cases List.mem_cons.1 hx.1 with
        | inl heq => exact .inl ⟨heq, heq ▸ hx.2⟩
        | inr hmem => exact .inr ⟨hmem, hx.2⟩
    · rw [hnext', hnext, or_assoc]
      simp only [List.mem_cons, or_and_right, exists_or, exists_eq_left]

/-- Rejecting over several stacks keeps what all of them reject. -/
theorem mem_rejectOver {forStack : List Candidate → Stack → Option (List Candidate)}
    {b : Stack → Candidate → Prop}
    (hstack : ∀ stack ∈ grammarStacks, ∀ candidates rejects,
      forStack candidates stack = some rejects →
        ∀ x, x ∈ rejects ↔ x ∈ candidates ∧ b stack x)
    (h : rejectOver forStack grammarStacks candidates = some rejects) (x : Candidate) :
    x ∈ rejects ↔ x ∈ candidates ∧ ∀ stack ∈ grammarStacks, b stack x := by
  have hfold : ∀ stacks' : Stacks, (∀ stack ∈ stacks', stack ∈ grammarStacks) →
      ∀ candidates rejects, stacks'.foldlM forStack candidates = some rejects →
        (x ∈ rejects ↔ x ∈ candidates ∧ ∀ stack ∈ stacks', b stack x) := by
    intro stacks'
    induction stacks' with
    | nil =>
      intro _ candidates rejects h
      cases h
      simp
    | cons stack stacks' ih =>
      intro hsub candidates rejects h
      rw [List.foldlM_cons] at h
      obtain ⟨mid, hmid, hrest⟩ := Option.bind_eq_some_iff.1 h
      rw [ih (fun s hs => hsub s (.tail _ hs)) mid rejects hrest,
        hstack stack (hsub stack (.head _)) candidates mid hmid x, List.forall_mem_cons,
        and_assoc]
  cases grammarStacks with
  | nil => cases h
  | cons front others =>
    rw [rejectOver] at h
    split at h
    · rename_i hnil
      cases h
      simp [hnil]
    · exact hfold _ (fun _ hs => hs) candidates rejects h

/-- What rejection for one stack returns: the candidates the stack does not let through. -/
theorem mem_rejectForStack (fuel : Nat) : ∀ {candidates stack rejects}, G.Ready stack →
    G.rejectCandidatesForStack fuel candidates stack = some rejects → ∀ x,
      x ∈ rejects ↔ x ∈ candidates ∧ ¬ G.Admits stack x := by
  induction fuel with
  | zero =>
    intro _ _ _ _ h
    cases h
  | succ fuel ih =>
    intro candidates stack rejects hready h x
    cases hready with
    | empty =>
      cases h
      rw [List.mem_filter]
      apply and_congr_right
      intro _
      by_cases hz : x.codePoint = 0
      · simp [hz, admits_zero hz, Takes]
      · simp [hz, not_admits_empty hz]
    | @char p rest hc hs =>
      rw [rejectCandidatesForStack] at h
      obtain ⟨⟨refused, passed⟩, hlists, h⟩ := Option.bind_eq_some_iff.1 h
      obtain ⟨after, hafter, h⟩ := Option.bind_eq_some_iff.1 h
      obtain ⟨nextStacks, hnext, h⟩ := Option.bind_eq_some_iff.1 h
      obtain ⟨nextRejects, hrejects, hout⟩ := Option.map_eq_some_iff.1 h
      obtain ⟨found, hmatch, _⟩ := matchChar_eq hc 0
      cases hmatch.symm.trans hafter
      have hexpands (s : Stack) : s ∈ nextStacks ↔ G.Expands (G.afterChar p rest) s := by
        have hmem := mem_advance adds_insertStack ⟨fuel, hnext⟩ s
        rwa [List.mem_nil_iff, false_or] at hmem
      have hover := mem_rejectOver (b := fun stack tok => ¬ G.Admits stack tok)
        (fun stack hstack candidates rejects h =>
          ih (((hexpands stack).1 hstack).ready (hs.afterChar hc)) h) hrejects
      obtain ⟨hrefused, _⟩ := mem_sortCandidates hc hlists x
      have hpassed (y : Candidate) := (mem_sortCandidates hc hlists y).2
      have hlate : x ∈ nextRejects.map Candidate.back ↔ x ∈ candidates ∧
          Passed (G.from p) x ∧ ∀ stack ∈ nextStacks, ¬ G.Admits stack x.next := by
        rw [List.mem_map]
        constructor
        · intro hx
          obtain ⟨y, hy, rfl⟩ := hx
          obtain ⟨hy, hbad⟩ := (hover y).1 hy
          obtain ⟨tok, htok, rfl, hpass⟩ := ((hpassed y).1 hy).resolve_left (by simp)
          exact ⟨htok, hpass, hbad⟩
        · intro hx
          obtain ⟨hx, hpass, hbad⟩ := hx
          exact ⟨x.next, (hover _).2 ⟨(hpassed _).2 (.inr ⟨x, hx, rfl, hpass⟩), hbad⟩, rfl⟩
      rw [← hout]
      change x ∈ refused ++ nextRejects.map Candidate.back ↔ _
      rw [List.mem_append, hrefused, hlate, List.mem_nil_iff, false_or, ← and_or_left,
        not_admits_class hc]
      simp only [hexpands]

/-! ### The language behind the stacks of a run -/

theorem halts_alt (hh : ∀ ss ∈ G.seen start, Cfg.Halts G.alts ss) (hss : ss ∈ G.alts start) :
    Cfg.Halts G.alts ss := by
  have hexp : Cfg.Expand G.alts [.ref start] (ss ++ []) := .ref hss
  rw [List.append_nil] at hexp
  exact hh ss (.inl (.expand .refl hexp))

theorem Ahead.settled (hh : ∀ ss ∈ G.seen start, Cfg.Halts G.alts ss) :
    G.Settled (G.Ahead start) where
  ready h := h.ready
  moves h hmoves := h.moves hmoves
  halts h hc := h.halts hh hc

theorem init_ne_nil (hstart : start < G.rules.length)
    (hh : ∀ ss ∈ G.seen start, Cfg.Halts G.alts ss) (h : Yields (G.init start) initial) :
    initial ≠ [] := by
  have hzero : 0 ∈ alternates (G.rule start) := .head _
  have hhalts := halts_alt hh ((mem_alts_iff hstart).2 ⟨0, hzero, rfl⟩)
  rw [← symbolsOf_startStack] at hhalts
  obtain ⟨stack, hexp⟩ := exists_expands (valid_startStack hstart hzero) hhalts
  exact List.ne_nil_of_mem ((mem_init adds_insertStack h stack).2 ⟨0, hzero, hexp⟩)

theorem Reached.acceptAll (h : G.Reached start grammarStacks)
    (hout : Yields (G.acceptAll grammarStacks chrs) out) : G.Reached start out := by
  induction chrs generalizing grammarStacks with
  | nil =>
    rw [returns_acceptAll_nil.1 hout]
    exact h
  | cons chr chrs ih =>
    obtain ⟨mid, hmid, hrest⟩ := returns_acceptAll_cons.1 hout
    exact ih (.accept h hmid) hrest

theorem RunsTerminate.acceptAll (hG : G.RunsTerminate start)
    (h : G.Reached start grammarStacks) (chrs : List Nat) :
    ∃ out, Yields (G.acceptAll grammarStacks chrs) out := by
  induction chrs generalizing grammarStacks with
  | nil => exact ⟨grammarStacks, returns_acceptAll_nil.2 rfl⟩
  | cons chr chrs ih =>
    obtain ⟨mid, hmid⟩ := hG.accept grammarStacks h chr
    obtain ⟨out, hout⟩ := ih (.accept h hmid)
    exact ⟨out, returns_acceptAll_cons.2 ⟨mid, hmid, hout⟩⟩

theorem returns_acceptAll_append : Yields (G.acceptAll grammarStacks (w ++ w')) out ↔
    ∃ mid, Yields (G.acceptAll grammarStacks w) mid ∧ Yields (G.acceptAll mid w') out := by
  induction w generalizing grammarStacks with
  | nil => simp only [List.nil_append, returns_acceptAll_nil, exists_eq_left]
  | cons chr w ih =>
    rw [List.cons_append, returns_acceptAll_cons]
    simp only [returns_acceptAll_cons, ih]
    constructor
    · intro h
      obtain ⟨first, hfirst, mid, hmid, hout⟩ := h
      exact ⟨mid, ⟨first, hfirst, hmid⟩, hout⟩
    · intro h
      obtain ⟨mid, ⟨first, hfirst, hmid⟩, hout⟩ := h
      exact ⟨first, hfirst, mid, hmid, hout⟩

end Rules

/-! ### Tokens -/

/-- The pieces of text some tokens stand for; the end of the generation has none. -/
def Vocab.pieces (vocab : Vocab) (tokens : List Int) : List Text :=
  (tokens.filter fun id => !vocab.isEog id).map vocab.tokenToPiece

theorem Vocab.pieces_concat (vocab : Vocab) (tokens : List Int) (id : Int) :
    vocab.pieces (tokens ++ [id]) =
      vocab.pieces tokens ++ if vocab.isEog id then [] else [vocab.tokenToPiece id] := by
  rw [Vocab.pieces, List.filter_append, List.map_append]
  cases hid : vocab.isEog id <;> simp [Vocab.pieces, hid]

theorem decodePieces_concat (pieces : List Text) (piece : Text) (p : PartialUtf8) :
    decodePieces (pieces ++ [piece]) p =
      ((decodePieces pieces p).1 ++ (decodePiece piece (decodePieces pieces p).2).1.dropLast,
        (decodePiece piece (decodePieces pieces p).2).2) := by
  induction pieces generalizing p with
  | nil => simp [decodePieces]
  | cons first pieces ih =>
    rw [List.cons_append, decodePieces, decodePieces, ih]
    simp

/-- The zero at the end of decoded code points. -/
theorem decodeSequences_concat (fuel : Nat) : ∀ codePoints value nRemain pos,
    ∃ chrs, (decodeSequences fuel codePoints value nRemain pos).1 = chrs ++ [0] := by
  induction fuel with
  | zero => exact fun codePoints _ _ _ => ⟨codePoints, rfl⟩
  | succ fuel ih =>
    intro codePoints value nRemain pos
    rw [decodeSequences]
    split
    · exact ⟨codePoints, rfl⟩
    · dsimp only
      split
      · exact ⟨[], rfl⟩
      · exact ih _ _ _ _

theorem decodePiece_concat (src : Text) (p : PartialUtf8) :
    (decodePiece src p).1 = (decodePiece src p).1.dropLast ++ [0] := by
  have hconcat : ∃ chrs, (decodePiece src p).1 = chrs ++ [0] := by
    rw [decodePiece]
    split
    · exact ⟨[], rfl⟩
    · exact decodeSequences_concat _ _ _ _ _
  obtain ⟨chrs, hchrs⟩ := hconcat
  rw [hchrs, List.dropLast_concat]

theorem candidate_word (vocab : Vocab) (g : Session) (i : Nat) (id : Int)
    (h : 0 ∉ (decodePiece (vocab.tokenToPiece id) g.partialUtf8).1.dropLast) :
    (Session.candidate vocab g i id).word =
      (decodePiece (vocab.tokenToPiece id) g.partialUtf8).1.dropLast := by
  have hrest : (Session.candidate vocab g i id).rest =
      (decodePiece (vocab.tokenToPiece id) g.partialUtf8).1 := rfl
  have hnonzero : ∀ chr ∈ (decodePiece (vocab.tokenToPiece id) g.partialUtf8).1.dropLast,
      decide (chr ≠ 0) = true := by
    intro chr hchr
    rw [decide_eq_true_iff]
    intro hzero
    exact h (hzero ▸ hchr)
  rw [Candidate.word, hrest, decodePiece_concat, List.takeWhile_append_of_pos hnonzero]
  simp

/-! ### Sessions -/

namespace Session
variable {G : Rules} {vocab : Vocab} {g g₀ : Session} {pieces : List Text}

/-- `llama_grammar_accept_impl` of one token after the other. -/
def acceptTokens (vocab : Vocab) (fuel : Nat) (g : Session) (tokens : List Int) : Option Session :=
  tokens.foldlM (acceptImpl vocab fuel) g

/-- A grammar that has followed some pieces of text from its start rule. -/
structure Tracks (G : Rules) (start : Nat) (initial : Stacks) (pieces : List Text)
    (g : Session) : Prop where
  rules : g.rules = G
  awake : g.awaitingTrigger = false
  reached : G.Reached start g.grammarStacks
  left : g.grammarStacks ≠ []
  followed : Yields (G.acceptAll initial (decodePieces pieces ⟨0, 0⟩).1) g.grammarStacks
  unfinished : g.partialUtf8 = (decodePieces pieces ⟨0, 0⟩).2

theorem any_isEmpty (out : Stacks) : out.any List.isEmpty = decide ([] ∈ out) := by
  rw [Bool.eq_iff_iff]
  simp

theorem acceptImpl_awake (h : g.awaitingTrigger = false) (fuel : Nat) (token : Int) :
    g.acceptImpl vocab fuel token =
      if vocab.isEog token then if [] ∈ g.grammarStacks then some g else none
      else g.acceptStr fuel (vocab.tokenToPiece token) := by
  simp [acceptImpl, h, any_isEmpty]

theorem acceptStr_eq (h : g.acceptStr fuel piece = some g') :
    ∃ grammarStacks, grammarStacks ≠ [] ∧
      g.rules.acceptAll g.grammarStacks (decodePiece piece g.partialUtf8).1.dropLast fuel =
        some grammarStacks ∧
      g' = { g with
        grammarStacks := grammarStacks
        partialUtf8 := (decodePiece piece g.partialUtf8).2 } := by
  obtain ⟨grammarStacks, hall, h⟩ := Option.bind_eq_some_iff.1 h
  split at h
  · cases h
  · rename_i hne
    exact ⟨grammarStacks, hne, hall, (Option.some.inj h).symm⟩

theorem Tracks.acceptStr (h : g.Tracks G start initial pieces)
    (haccept : g.acceptStr fuel piece = some g') :
    g'.Tracks G start initial (pieces ++ [piece]) := by
  obtain ⟨grammarStacks, hne, hall, rfl⟩ := acceptStr_eq haccept
  rw [h.rules] at hall
  have hyields : Yields
      (G.acceptAll g.grammarStacks (decodePiece piece g.partialUtf8).1.dropLast)
      grammarStacks := ⟨fuel, hall⟩
  have hconcat := decodePieces_concat pieces piece ⟨0, 0⟩
  rw [← h.unfinished] at hconcat
  exact {
    rules := h.rules
    awake := h.awake
    reached := h.reached.acceptAll hyields
    left := hne
    followed := by
      rw [hconcat]
      exact Rules.returns_acceptAll_append.2 ⟨_, h.followed, hyields⟩
    unfinished := by rw [hconcat] }

theorem Tracks.accept (h : g.Tracks G start initial pieces)
    (haccept : g.acceptImpl vocab fuel token = some g') :
    g'.Tracks G start initial
      (pieces ++ if vocab.isEog token then [] else [vocab.tokenToPiece token]) := by
  rw [acceptImpl_awake h.awake] at haccept
  cases heog : vocab.isEog token with
  | true =>
    rw [heog, if_pos rfl] at haccept
    split at haccept
    · cases haccept
      rw [if_pos rfl, List.append_nil]
      exact h
    · cases haccept
  | false =>
    rw [heog, if_neg Bool.false_ne_true] at haccept
    rw [if_neg Bool.false_ne_true]
    exact h.acceptStr haccept

/-- A run follows the text of its tokens. -/
theorem Tracks.run (h : g₀.Tracks G start initial [])
    (hrun : g₀.acceptTokens vocab fuel tokens = some g) :
    g.Tracks G start initial (vocab.pieces tokens) := by
  apply sweep_along (J := fun done g => g.Tracks G start initial (vocab.pieces done)) _ h hrun
  intro done token left g g' _ hdone haccept
  rw [vocab.pieces_concat]
  exact hdone.accept haccept

theorem mem_numbered (ids : List Int) (i : Nat) (token : Int) :
    (i, token) ∈ (List.range ids.length).zip ids ↔ ids[i]? = some token := by
  rw [List.mem_iff_getElem?]
  simp only [List.getElem?_zip_eq_some]
  constructor
  · intro h
    obtain ⟨j, hj, htoken⟩ := h
    obtain ⟨_, rfl⟩ := List.getElem?_eq_some_iff.1 hj
    rwa [List.getElem_range]
  · intro h
    have hi : i < ids.length := (List.getElem?_eq_some_iff.1 h).1
    exact ⟨i, List.getElem?_range hi, h⟩

/-- The tokens of a kind that stand at a position. -/
theorem mem_filter_numbered {p : Nat × Int → Bool} (hid : ids[i]? = some token) (x : Nat × Int) :
    (x ∈ ((List.range ids.length).zip ids).filter p ∧ x.1 = i) ↔
      x = (i, token) ∧ p (i, token) = true := by
  constructor
  · intro h
    obtain ⟨hx, rfl⟩ := h
    obtain ⟨hx, hp⟩ := List.mem_filter.1 hx
    have htoken := (mem_numbered ids x.1 x.2).1 hx
    rw [hid] at htoken
    cases htoken
    exact ⟨rfl, hp⟩
  · intro h
    obtain ⟨rfl, hp⟩ := h
    exact ⟨List.mem_filter.2 ⟨(mem_numbered ids i token).2 hid, hp⟩, rfl⟩

/-- The positions the mask has. -/
theorem mem_masked (hawake : g.awaitingTrigger = false)
    (hready : ∀ stack ∈ g.grammarStacks, g.rules.Ready stack)
    (h : g.masked vocab fuel ids = some positions) (hid : ids[i]? = some token) :
    i ∈ positions ↔ if vocab.isEog token then [] ∉ g.grammarStacks
      else peek (vocab.tokenToPiece token) = 0 ∨
        ∀ stack ∈ g.grammarStacks, ¬ g.rules.Admits stack (candidate vocab g i token) := by
  rw [masked, hawake] at h
  obtain ⟨rejects, hrejects, rfl⟩ := Option.map_eq_some_iff.1 h
  have hmem := Rules.mem_rejectOver
    (fun stack hstack candidates rejects h =>
      Rules.mem_rejectForStack fuel (hready stack hstack) h) hrejects
  have hlate : i ∈ rejects.map Candidate.index ↔
      (vocab.isEog token = false ∧ peek (vocab.tokenToPiece token) ≠ 0) ∧
        ∀ stack ∈ g.grammarStacks, ¬ g.rules.Admits stack (candidate vocab g i token) := by
    rw [List.mem_map]
    constructor
    · intro hx
      obtain ⟨tok, htok, hindex⟩ := hx
      obtain ⟨htok, hall⟩ := (hmem tok).1 htok
      obtain ⟨x, hx, rfl⟩ := List.mem_map.1 htok
      obtain ⟨rfl, hcond⟩ := (mem_filter_numbered hid x).1 ⟨hx, hindex⟩
      exact ⟨by simpa using hcond, hall⟩
    · intro hx
      obtain ⟨hcond, hall⟩ := hx
      refine ⟨_, (hmem _).2 ⟨List.mem_map.2 ⟨(i, token), ?_, rfl⟩, hall⟩, rfl⟩
      exact ((mem_filter_numbered hid _).2 ⟨rfl, by simpa using hcond⟩).1
  rw [List.mem_append, hlate, List.mem_map]
  simp only [mem_filter_numbered hid, exists_eq_left]
  cases vocab.isEog token with
  | true => simp [any_isEmpty]
  | false =>
    by_cases hpeek : peek (vocab.tokenToPiece token) = 0
    · simp [hpeek]
    · simp [hpeek]

theorem Tracks.ready (h : g.Tracks G start initial pieces) (hstart : start < G.rules.length) :
    ∀ stack ∈ g.grammarStacks, g.rules.Ready stack := by
  rw [h.rules]
  exact fun stack hstack => (Rules.ahead_reached hstart h.reached stack hstack).ready

/-- The mask is computed at every point of a run. -/
theorem Tracks.masked_returns (h : g.Tracks G start initial pieces) (hG : G.RunsTerminate start)
    (ids : List Int) : ∃ positions, Yields (fun fuel => g.masked vocab fuel ids) positions := by
  obtain ⟨rejects, fuel, hrejects⟩ := hG.reject _ h.reached h.left
    ((((List.range ids.length).zip ids).filter fun t =>
      !vocab.isEog t.2 ∧ peek (vocab.tokenToPiece t.2) ≠ 0).map fun t => candidate vocab g t.1 t.2)
  have hmask : ∃ positions, g.masked vocab fuel ids = some positions := by
    rw [masked, h.awake, h.rules]
    exact ⟨_, Option.map_eq_some_iff.2 ⟨rejects, hrejects, rfl⟩⟩
  obtain ⟨positions, hmask⟩ := hmask
  exact ⟨positions, fuel, hmask⟩

/-- A token with text is let through where accepting it leaves a stack in front of which its
unfinished character may stand. -/
theorem Tracks.admits_iff (h : g.Tracks G start initial pieces) (hstart : start < G.rules.length)
    (hG : G.RunsTerminate start) (heog : vocab.isEog token = false)
    (hzero : 0 ∉ (decodePiece (vocab.tokenToPiece token) g.partialUtf8).1.dropLast) (i : Nat) :
    (∃ stack ∈ g.grammarStacks, G.Admits stack (candidate vocab g i token)) ↔
      ∃ g', Yields (fun fuel => g.acceptImpl vocab fuel token) g' ∧
        ∃ stack ∈ g'.grammarStacks, G.Takes g'.partialUtf8 stack := by
  have hready := h.ready hstart
  rw [h.rules] at hready
  have hword := candidate_word vocab g i token hzero
  have haccept (fuel : Nat) : g.acceptImpl vocab fuel token =
      g.acceptStr fuel (vocab.tokenToPiece token) := by
    rw [acceptImpl_awake h.awake, heog, if_neg Bool.false_ne_true]
  simp only [haccept]
  constructor
  · intro hadmits
    obtain ⟨stack, hstack, stack', hmoves, htakes⟩ := hadmits
    rw [hword] at hmoves
    obtain ⟨out, fuel, hout⟩ := hG.acceptAll h.reached
      (decodePiece (vocab.tokenToPiece token) g.partialUtf8).1.dropLast
    have hmem := (Rules.mem_acceptAll adds_insertStack hready ⟨fuel, hout⟩ stack').2
      ⟨stack, hstack, hmoves⟩
    rw [← h.rules] at hout
    refine ⟨{ g with
      grammarStacks := out
      partialUtf8 := (decodePiece (vocab.tokenToPiece token) g.partialUtf8).2 },
      ⟨fuel, Option.bind_eq_some_iff.2 ⟨out, hout, ?_⟩⟩, stack', hmem, htakes⟩
    exact if_neg (List.ne_nil_of_mem hmem)
  · intro haccepted
    obtain ⟨g', ⟨fuel, hg'⟩, stack', hstack', htakes⟩ := haccepted
    obtain ⟨out, _, hout, rfl⟩ := acceptStr_eq hg'
    rw [h.rules] at hout
    obtain ⟨stack, hstack, hmoves⟩ :=
      (Rules.mem_acceptAll adds_insertStack hready ⟨fuel, hout⟩ stack').1 hstack'
    exact ⟨stack, hstack, stack', hword ▸ hmoves, htakes⟩

/-- Behind whole characters nothing is unfinished. -/
theorem Tracks.whole (h : g.Tracks G start initial pieces) (hs : ∀ ch ∈ s, ch.toNat ≠ 0)
    (htext : pieces.flatten = textOf s) :
    Yields (G.acceptAll initial (s.map Char.toNat)) g.grammarStacks ∧
      ∃ value, g.partialUtf8 = ⟨value, 0⟩ := by
  have hdecoded := decodePieces_fits 0 (htext ▸ fits_textOf hs : Fits 0 pieces.flatten)
  obtain ⟨hcodes, hend⟩ := readBytes_textOf 0 s
  rw [Nat.cast_zero, htext, hcodes, hend] at hdecoded
  have hfollowed := h.followed
  rw [hdecoded] at hfollowed
  exact ⟨hfollowed, _, h.unfinished.trans (congrArg Prod.snd hdecoded)⟩

/-- The empty stack is there where the text so far is a word of the start rule. -/
theorem derives_acceptAll (hstart : start < G.rules.length) (hG : G.RunsTerminate start)
    (hinit : Yields (G.init start) initial) (hout : Yields (G.acceptAll initial w) out) :
    [] ∈ out ↔ Cfg.Derives G.alts [.ref start] w := by
  have hh := Rules.halts_of_runsTerminate hstart hG
  have hahead := Rules.ahead_reached hstart (.init hinit)
  rw [Rules.mem_acceptAll adds_insertStack (fun stack hstack => (hahead stack hstack).ready) hout,
    Rules.derives_init_of (Rules.Ahead.settled hh) (fun ss hss => Rules.halts_alt hh hss)
      adds_insertStack hstart hinit hahead]

theorem initImpl_tracks
    (hinit : initImpl fuel grammarStr grammarRoot false [] [] = some (some g₀))
    (hread : readGrammar fuel grammarStr grammarRoot = some (parsed, start))
    (hroot : start < parsed.length) (hG : g₀.rules.RunsTerminate start) :
    start < g₀.rules.rules.length ∧ ∃ initial, Yields (g₀.rules.init start) initial ∧
      g₀.Tracks g₀.rules start initial [] := by
  rw [initImpl, hread] at hinit
  dsimp only at hinit
  split at hinit
  · cases hinit
  · obtain ⟨G, hrules, hinit⟩ := Option.bind_eq_some_iff.1 hinit
    obtain ⟨initial, hinitial, hg⟩ := Option.map_eq_some_iff.1 hinit
    cases hg
    have hlist : G.rules = parsed := by
      rw [Rules.ofList] at hrules
      split at hrules
      · cases hrules
        rfl
      · cases hrules
    have hstart : start < G.rules.length := hlist ▸ hroot
    have hhalts := Rules.halts_of_runsTerminate hstart hG
    refine ⟨hstart, initial, ⟨fuel, hinitial⟩, ?_⟩
    exact {
      rules := rfl
      awake := rfl
      reached := .init ⟨fuel, hinitial⟩
      left := Rules.init_ne_nil hstart hhalts ⟨fuel, hinitial⟩
      followed := Rules.returns_acceptAll_nil.2 rfl
      unfinished := rfl }

/-- At every point of a run the mask is computed. It leaves the end of the generation exactly
where the text so far is a word of the grammar, no token that begins with a zero, and any other
token exactly where accepting it leaves a stack that its unfinished character may go on from. -/
theorem masked_exact (vocab : Vocab)
    (hinit : initImpl fuel grammarStr grammarRoot false [] [] = some (some g₀))
    (hread : readGrammar fuel grammarStr grammarRoot = some (parsed, start))
    (hroot : start < parsed.length) (hG : g₀.rules.RunsTerminate start)
    (hrun : Yields (fun fuel => g₀.acceptTokens vocab fuel tokens) g) (ids : List Int) :
    ∃ positions, Yields (fun fuel => g.masked vocab fuel ids) positions ∧
      ∀ i token, ids[i]? = some token →
        (vocab.isEog token = true → ∀ s : List Char, (∀ ch ∈ s, ch.toNat ≠ 0) →
          (vocab.pieces tokens).flatten = textOf s →
          (i ∉ positions ↔ Cfg.Derives g₀.rules.alts [.ref start] (s.map Char.toNat))) ∧
        (vocab.isEog token = false → peek (vocab.tokenToPiece token) = 0 → i ∈ positions) ∧
        (vocab.isEog token = false → peek (vocab.tokenToPiece token) ≠ 0 →
          0 ∉ (decodePiece (vocab.tokenToPiece token) g.partialUtf8).1.dropLast →
          (i ∉ positions ↔ ∃ g', Yields (fun fuel => g.acceptImpl vocab fuel token) g' ∧
            ∃ stack ∈ g'.grammarStacks, g₀.rules.Takes g'.partialUtf8 stack)) := by
  obtain ⟨hstart, initial, hinitial, htracks⟩ := initImpl_tracks hinit hread hroot hG
  obtain ⟨fuel', hrun⟩ := hrun
  have h := htracks.run hrun
  obtain ⟨positions, hmask⟩ := h.masked_returns hG ids
  refine ⟨positions, hmask, ?_⟩
  obtain ⟨fuel'', hmask⟩ := hmask
  intro i token hid
  have hmem := mem_masked h.awake (h.ready hstart) hmask hid
  refine ⟨?_, ?_, ?_⟩
  · intro heog s hs htext
    rw [hmem, heog, if_pos rfl, not_not]
    exact derives_acceptAll hstart hG hinitial (h.whole hs htext).1
  · intro heog hpeek
    rw [hmem, heog, if_neg Bool.false_ne_true]
    exact .inl hpeek
  · intro heog hpeek hzero
    rw [hmem, heog, if_neg Bool.false_ne_true, ← h.admits_iff hstart hG heog hzero i, h.rules]
    simp [hpeek]

/-- `root ::= "é" root |`. -/
def accents : Text := textOf "root ::= \"é\" root |".toList

def accentsRules : Rules :=
  ⟨[[⟨.CHAR, 233⟩, ⟨.RULE_REF, 0⟩, ⟨.ALT, 0⟩, ⟨.END, 0⟩]], by decide, by decide⟩

theorem accents_read :
    readGrammar 30 accents ("root".toList.map byte) = some (accentsRules.rules, 0) := by
  decide +kernel

/-- The first byte and the second one of `é`, and an end. -/
def accentsVocab : Vocab :=
  ⟨fun id => id = 0, fun id => if id = 1 then [0xC3] else if id = 2 then [0xA9] else []⟩

theorem accents_runsTerminate : accentsRules.RunsTerminate 0 := by
  apply Rules.runsTerminate_of_check (by decide) (by decide)
  intro n hn
  cases n with
  | zero => decide
  | succ n =>
    obtain ⟨alt, halt, _⟩ := Cfg.derives_ref.1 hn
    exact absurd halt.1 (by simp [accentsRules])

theorem initImpl_of_read (hread : readGrammar fuel grammarStr grammarRoot = some (G.rules, start))
    (hcheck : leftRecursive G.rules = false) (hinit : G.init start fuel = some initial) :
    initImpl fuel grammarStr grammarRoot false [] [] =
      some (some ⟨G, initial, ⟨0, 0⟩, false, false, [], [], []⟩) := by
  have hrules : Rules.ofList G.rules = some G := dif_pos ⟨G.wf, G.refs⟩
  rw [initImpl, hread]
  dsimp only
  rw [hcheck, if_neg Bool.false_ne_true, hrules, Option.bind_some, hinit]
  rfl

/-- Behind the two bytes of `é` the end is left. -/
theorem masked_exact_accents : ∃ g₀ g, initImpl 30 accents ("root".toList.map byte) false [] [] =
      some (some g₀) ∧ Yields (fun fuel => g₀.acceptTokens accentsVocab fuel [1, 2]) g ∧
    ∃ positions, Yields (fun fuel => g.masked accentsVocab fuel [1, 0]) positions ∧
      (1 ∉ positions ↔ Cfg.Derives accentsRules.alts [.ref 0] [233]) := by
  have hinitial : accentsRules.init 0 30 = some [[⟨0, 0⟩], []] := by decide
  have hinit := initImpl_of_read accents_read (by decide) hinitial
  have hrun : Yields (fun fuel => acceptTokens accentsVocab fuel
      ⟨accentsRules, [[⟨0, 0⟩], []], ⟨0, 0⟩, false, false, [], [], []⟩ [1, 2])
      ⟨accentsRules, [[⟨0, 0⟩], []], ⟨233, 0⟩, false, false, [], [], []⟩ := ⟨10, rfl⟩
  obtain ⟨positions, hmask, hexact⟩ := masked_exact accentsVocab hinit accents_read (by decide)
    accents_runsTerminate hrun [1, 0]
  have hcodes : ∀ ch ∈ ['é'], ch.toNat ≠ 0 := by
    intro ch hch
    rw [List.mem_singleton.1 hch]
    decide
  refine ⟨_, _, hinit, hrun, positions, hmask, ?_⟩
  exact (hexact 1 0 rfl).1 rfl ['é'] hcodes (by decide)

/-! ### Whole generations -/

/-- Tokens taken one after the other: the mask, over all that are offered or over the token alone,
leaves it, and it is accepted. -/
inductive Generates (vocab : Vocab) (offered : List Int) : List Int → Session → Session → Prop
  | done {g : Session} : Generates vocab offered [] g g
  | token {g : Session} (hids : ids = offered ∨ ids = [token])
      (hmask : Yields (fun fuel => g.masked vocab fuel ids) positions)
      (hid : ids[i]? = some token) (hfree : i ∉ positions)
      (haccept : Yields (fun fuel => g.acceptImpl vocab fuel token) g')
      (h : Generates vocab offered tokens g' g'') :
      Generates vocab offered (token :: tokens) g g''

/-- A token that stands for whole characters. -/
structure Spells (vocab : Vocab) (texts : Int → List Char) (token : Int) : Prop where
  eog : vocab.isEog token = false
  left : peek (vocab.tokenToPiece token) ≠ 0
  piece : vocab.tokenToPiece token = textOf (texts token)
  nonzero : ∀ ch ∈ texts token, ch.toNat ≠ 0

/-- A token of a word of the grammar is left by the mask and accepted. -/
theorem Tracks.takes (h : g.Tracks G start initial pieces) (hstart : start < G.rules.length)
    (hG : G.RunsTerminate start) (hinit : Yields (G.init start) initial)
    (hs : ∀ ch ∈ s, ch.toNat ≠ 0) (htext : pieces.flatten = textOf s)
    (hspells : Spells vocab texts token) (hid : ids[i]? = some token)
    (hword : Cfg.Derives G.alts [.ref start] ((s ++ (texts token ++ w)).map Char.toNat)) :
    ∃ positions g', Yields (fun fuel => g.masked vocab fuel ids) positions ∧ i ∉ positions ∧
      Yields (fun fuel => g.acceptImpl vocab fuel token) g' := by
  obtain ⟨hfollowed, value, hvalue⟩ := h.whole hs htext
  have hdecoded := decodePiece_fits value (fits_textOf hspells.nonzero)
  obtain ⟨hcodes, hend⟩ := readBytes_textOf value (texts token)
  rw [Nat.cast_zero, ← hvalue, hcodes, hend, ← hspells.piece] at hdecoded
  have hzero : 0 ∉ (decodePiece (vocab.tokenToPiece token) g.partialUtf8).1.dropLast := by
    rw [hdecoded, List.dropLast_concat, List.mem_map]
    intro hzero
    obtain ⟨ch, hch, heq⟩ := hzero
    exact hspells.nonzero ch hch heq
  rw [List.map_append] at hword
  obtain ⟨out, hout⟩ := hG.acceptAll h.reached ((texts token ++ w).map Char.toNat)
  have hempty := (derives_acceptAll hstart hG hinit
    (Rules.returns_acceptAll_append.2 ⟨_, hfollowed, hout⟩)).2 hword
  obtain ⟨stack, hstack, hmoves⟩ :=
    (Rules.mem_acceptAll adds_insertStack (h.rules ▸ h.ready hstart) hout []).1 hempty
  rw [List.map_append, Rules.movesAll_append] at hmoves
  obtain ⟨stack', hmoves, _⟩ := hmoves
  have hadmits : G.Admits stack (candidate vocab g i token) := by
    refine ⟨stack', ?_, ?_⟩
    · rwa [candidate_word vocab g i token hzero, hdecoded, List.dropLast_concat]
    · have hpartial : (candidate vocab g i token).partialUtf8.nRemain = 0 :=
        congrArg (fun d => d.2.nRemain) hdecoded
      cases stack' with
      | nil => exact hpartial
      | cons p rest => exact .inl hpartial
  obtain ⟨g', haccept, _⟩ :=
    (h.admits_iff hstart hG hspells.eog hzero i).1 ⟨stack, hstack, hadmits⟩
  obtain ⟨positions, fuel, hmask⟩ := h.masked_returns hG ids
  refine ⟨positions, g', ⟨fuel, hmask⟩, ?_, haccept⟩
  rw [mem_masked h.awake (h.ready hstart) hmask hid, hspells.eog, if_neg Bool.false_ne_true,
    h.rules, not_or]
  exact ⟨hspells.left, fun hall => hall stack hstack hadmits⟩

theorem Tracks.generates_words (h : g.Tracks G start initial pieces) (hstart : start < G.rules.length)
    (hG : G.RunsTerminate start) (hinit : Yields (G.init start) initial)
    (hs : ∀ ch ∈ s, ch.toNat ≠ 0) (htext : pieces.flatten = textOf s)
    (heos : eos ∈ ids) (heog : vocab.isEog eos = true)
    (htokens : ∀ token ∈ tokens, token ∈ ids ∧ Spells vocab texts token) :
    (∃ g', Generates vocab ids (tokens ++ [eos]) g g') ↔
      Cfg.Derives G.alts [.ref start] ((s ++ tokens.flatMap texts).map Char.toNat) := by
  induction tokens generalizing g pieces s with
  | nil =>
    obtain ⟨i, hid⟩ := List.mem_iff_getElem?.1 heos
    have hmask : ∃ positions, Yields (fun fuel => g.masked vocab fuel ids) positions :=
      h.masked_returns hG ids
    obtain ⟨positions, fuel, hmask⟩ := hmask
    have hmem := mem_masked h.awake (h.ready hstart) hmask hid
    have haccept (fuel : Nat) : g.acceptImpl vocab fuel eos = _ := acceptImpl_awake h.awake fuel eos
    rw [heog, if_pos rfl] at hmem
    simp only [heog, if_true] at haccept
    rw [List.flatMap_nil, List.append_nil, ← derives_acceptAll hstart hG hinit (h.whole hs htext).1]
    constructor
    · intro hgen
      obtain ⟨_, hgen⟩ := hgen
      cases hgen with
      | token _ _ _ _ haccepted =>
        obtain ⟨fuel, haccepted⟩ := haccepted
        by_contra hempty
        cases ((haccept fuel).trans (if_neg hempty)).symm.trans haccepted
    · intro hempty
      exact ⟨g, .token (.inl rfl) ⟨fuel, hmask⟩ hid (fun hi => hmem.1 hi hempty)
        ⟨0, (haccept 0).trans (if_pos hempty)⟩ .done⟩
  | cons token tokens ih =>
    obtain ⟨⟨hoffered, hspells⟩, htokens⟩ := List.forall_mem_cons.1 htokens
    have hs' : ∀ ch ∈ s ++ texts token, ch.toNat ≠ 0 :=
      List.forall_mem_append.2 ⟨hs, hspells.nonzero⟩
    have htext' : (pieces ++ [vocab.tokenToPiece token]).flatten = textOf (s ++ texts token) := by
      rw [List.flatten_concat, htext, hspells.piece, textOf_append]
    have hnext {g'} (haccept : Yields (fun fuel => g.acceptImpl vocab fuel token) g') :=
      haccept.elim fun fuel haccept => h.accept haccept
    simp only [hspells.eog, if_neg Bool.false_ne_true] at hnext
    have hrest {g'} haccept := ih (@hnext g' haccept) hs' htext' htokens
    rw [List.append_assoc, ← List.flatMap_cons] at hrest
    constructor
    · intro hgen
      obtain ⟨g', hgen⟩ := hgen
      cases hgen with
      | token _ _ _ _ haccept hgen => exact (hrest haccept).1 ⟨g', hgen⟩
    · intro hword
      obtain ⟨i, hid⟩ := List.mem_iff_getElem?.1 hoffered
      obtain ⟨positions, g', hmask, hfree, haccept⟩ :=
        h.takes hstart hG hinit hs htext hspells hid hword
      obtain ⟨g'', hgen⟩ := (hrest haccept).2 hword
      exact ⟨g'', .token (.inl rfl) hmask hid hfree haccept hgen⟩

/-- Tokens that spell characters can be generated up to an end exactly where the text they spell is
a word of the grammar. -/
theorem generates_iff (vocab : Vocab)
    (hinit : initImpl fuel grammarStr grammarRoot false [] [] = some (some g₀))
    (hread : readGrammar fuel grammarStr grammarRoot = some (parsed, start))
    (hroot : start < parsed.length) (hG : g₀.rules.RunsTerminate start)
    (heos : eos ∈ ids) (heog : vocab.isEog eos = true)
    (htokens : ∀ token ∈ tokens, token ∈ ids ∧ Spells vocab texts token) :
    (∃ g, Generates vocab ids (tokens ++ [eos]) g₀ g) ↔
      Cfg.Derives g₀.rules.alts [.ref start] ((tokens.flatMap texts).map Char.toNat) := by
  obtain ⟨hstart, initial, hinitial, htracks⟩ := initImpl_tracks hinit hread hroot hG
  exact htracks.generates_words (s := []) hstart hG hinitial (by simp) rfl heos heog htokens

/-- `é` twice, and an end. -/
theorem generates_iff_accents :
    ∃ g₀, initImpl 30 accents ("root".toList.map byte) false [] [] = some (some g₀) ∧
      ((∃ g, Generates ⟨fun id => id = 0, fun _ => textOf ['é']⟩ [1, 0] [1, 1, 0] g₀ g) ↔
        Cfg.Derives accentsRules.alts [.ref 0] [233, 233]) := by
  have hinit := initImpl_of_read accents_read (by decide)
    (by decide : accentsRules.init 0 30 = some [[⟨0, 0⟩], []])
  have hspelled : ∀ token ∈ [1, 1], token ∈ [1, 0] ∧ Spells
      ⟨fun id => id = 0, fun _ => textOf ['é']⟩ (fun _ => ['é']) token := by
    simp only [List.forall_mem_cons, List.not_mem_nil, false_imp_iff, implies_true, and_true, and_self]
    exact ⟨by decide, rfl, by decide, rfl, List.forall_mem_singleton.2 (by decide)⟩
  exact ⟨_, hinit, generates_iff _ hinit accents_read (by decide) accents_runsTerminate (by decide)
    rfl hspelled⟩

end Session
end ActQuant.Grammar
