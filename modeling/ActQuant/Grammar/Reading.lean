import ActQuant.Grammar.FormatLiteral
import ActQuant.Grammar.Operators

namespace ActQuant.Grammar
open Lib

/-! How the texts of items, sequences and alternates are read, and the words they stand for. -/

namespace Parser

/-! ### More fuel -/

theorem parseLiteral_more (h : parseLiteral fuel rule pos = some r) :
    parseLiteral (fuel + 1) rule pos = some r := by
  induction fuel generalizing rule pos with
  | zero => cases h
  | succ fuel ih =>
    rw [parseLiteral] at h ⊢
    split at h
    case isTrue hquote => rwa [if_pos hquote]
    case isFalse hquote =>
      split at h
      case isTrue => cases h
      case isFalse hend =>
        obtain ⟨c, hc, h⟩ := Option.bind_eq_some_iff.1 h
        rw [if_neg hquote, if_neg hend, hc, Option.bind_some]
        exact ih h

theorem parseRanges_more (h : parseRanges startType k fuel rule pos = some r) :
    parseRanges startType k (fuel + 1) rule pos = some r := by
  induction fuel generalizing rule pos with
  | zero => cases h
  | succ fuel ih =>
    rw [parseRanges] at h ⊢
    split at h
    case isTrue hclose => rwa [if_pos hclose]
    case isFalse hclose =>
      split at h
      case isTrue => cases h
      case isFalse hend =>
        obtain ⟨c, hc, h⟩ := Option.bind_eq_some_iff.1 h
        rw [if_neg hclose, if_neg hend, hc, Option.bind_some]
        dsimp only at h ⊢
        split at h
        case isTrue hrange =>
          split at h
          case isTrue => cases h
          case isFalse hlast =>
            obtain ⟨c', hc', h⟩ := Option.bind_eq_some_iff.1 h
            rw [if_pos hrange, if_neg hlast, hc', Option.bind_some]
            exact ih h
        case isFalse hrange =>
          rw [if_neg hrange]
          exact ih h

theorem itemStep_more
    (halternates : ∀ ruleName isNested ruleId P src r,
      parseAlternates ruleName isNested ruleId fuel P src = some r →
        parseAlternates ruleName isNested ruleId (fuel + 1) P src = some r)
    (h : itemStep ruleName isNested fuel s = some s') :
    itemStep ruleName isNested (fuel + 1) s = some s' := by
  rw [itemStep] at h ⊢
  dsimp only at h ⊢
  split at h
  case isTrue hquote =>
    obtain ⟨r, hr, rfl⟩ := Option.map_eq_some_iff.1 h
    rw [if_pos hquote, parseLiteral_more hr, Option.map_some]
  case isFalse hquote =>
    rw [if_neg hquote]
    split at h
    case isTrue hclass =>
      obtain ⟨r, hr, rfl⟩ := Option.map_eq_some_iff.1 h
      rw [if_pos hclass, parseRanges_more hr, Option.map_some]
    case isFalse hclass =>
      rw [if_neg hclass]
      split at h
      case isTrue hword => rwa [if_pos hword]
      case isFalse hword =>
        rw [if_neg hword]
        split at h
        case isTrue hgroup =>
          obtain ⟨r, hr, h⟩ := Option.bind_eq_some_iff.1 h
          rw [if_pos hgroup, halternates _ _ _ _ _ _ hr, Option.bind_some]
          exact h
        case isFalse hgroup => rwa [if_neg hgroup]

/-- What is read is read with more fuel, too. -/
theorem parse_more (fuel : Nat) :
    (∀ ruleName isNested ruleId P src r,
      parseAlternates ruleName isNested ruleId fuel P src = some r →
        parseAlternates ruleName isNested ruleId (fuel + 1) P src = some r) ∧
    (∀ ruleName isNested P rule src s,
      parseSequences ruleName isNested fuel P rule src = some s →
        parseSequences ruleName isNested (fuel + 1) P rule src = some s) ∧
    ∀ ruleName isNested s s', parseItems ruleName isNested fuel s = some s' →
      parseItems ruleName isNested (fuel + 1) s = some s' := by
  induction fuel with
  | zero =>
    refine ⟨?_, ?_, ?_⟩
    · intro _ _ _ _ _ _ h
      cases h
    · intro _ _ _ _ _ _ h
      cases h
    · intro _ _ _ _ h
      cases h
  | succ fuel ih =>
    obtain ⟨ihalternates, ihsequences, ihitems⟩ := ih
    refine ⟨?_, ?_, ?_⟩
    · intro ruleName isNested ruleId P src r h
      rw [parseAlternates] at h ⊢
      obtain ⟨s, hs, rfl⟩ := Option.map_eq_some_iff.1 h
      rw [ihsequences _ _ _ _ _ _ hs, Option.map_some]
    · intro ruleName isNested P rule src s h
      rw [parseSequences] at h ⊢
      obtain ⟨s₁, hs₁, h⟩ := Option.bind_eq_some_iff.1 h
      rw [ihitems _ _ _ _ hs₁, Option.bind_some]
      split at h
      case isTrue hbar =>
        rw [if_pos hbar]
        exact ihsequences _ _ _ _ _ _ h
      case isFalse hbar => rwa [if_neg hbar]
    · intro ruleName isNested s s' h
      rw [parseItems_succ] at h ⊢
      split at h
      case isTrue hstart =>
        obtain ⟨s₁, hs₁, h⟩ := Option.bind_eq_some_iff.1 h
        rw [if_pos hstart, itemStep_more ihalternates hs₁, Option.bind_some]
        exact ihitems _ _ _ _ h
      case isFalse hstart => rwa [if_neg hstart]

theorem parseAlternates_mono (h : parseAlternates ruleName isNested ruleId fuel P src = some r)
    (hle : fuel ≤ fuel') : parseAlternates ruleName isNested ruleId fuel' P src = some r := by
  induction hle with
  | refl => exact h
  | step _ ih => exact (parse_more _).1 _ _ _ _ _ _ ih

theorem parseSequences_mono (h : parseSequences ruleName isNested fuel P rule src = some s)
    (hle : fuel ≤ fuel') : parseSequences ruleName isNested fuel' P rule src = some s := by
  induction hle with
  | refl => exact h
  | step _ ih => exact (parse_more _).2.1 _ _ _ _ _ _ ih

theorem parseItems_mono (h : parseItems ruleName isNested fuel s = some s') (hle : fuel ≤ fuel') :
    parseItems ruleName isNested fuel' s = some s' := by
  induction hle with
  | refl => exact h
  | step _ ih => exact (parse_more _).2.2 _ _ _ _ ih

theorem itemStep_mono (h : itemStep ruleName isNested fuel s = some s') (hle : fuel ≤ fuel') :
    itemStep ruleName isNested fuel' s = some s' := by
  induction hle with
  | refl => exact h
  | step _ ih => exact itemStep_more (parse_more _).1 ih

/-! ### Turns -/

/-- A turn of the loop over the items that has the fuel it needs. -/
def Turn (ruleName : Text) (isNested : Bool) (s s' : SequenceState) : Prop :=
  startsItem (peek s.pos) = true ∧ ∃ fuel, itemStep ruleName isNested fuel s = some s'

/-- The loop over the items of a sequence. -/
abbrev Turns (ruleName : Text) (isNested : Bool) : SequenceState → SequenceState → Prop :=
  Relation.ReflTransGen (Turn ruleName isNested)

/-- A state between two items. -/
structure Ready (s : SequenceState) : Prop where
  good : Good s
  numbered : s.parser.Numbered

theorem Turn.grows (h : Turn ruleName isNested s s') (hs : Ready s) :
    Ready s' ∧ Grows none s.parser s'.parser := by
  obtain ⟨_, fuel, hstep⟩ := h
  have hgrows := itemStep_grows (parse_grows fuel).1 hs.good hstep
  have hgood := (itemStep_good (parse_step fuel).1 hs.good hstep).1
  exact ⟨⟨hgood, hgrows.numbered hs.numbered⟩, hgrows⟩

theorem turns_grow (h : Turns ruleName isNested s s') (hs : Ready s) :
    Ready s' ∧ Grows none s.parser s'.parser := by
  induction h with
  | refl => exact ⟨hs, .refl _ _⟩
  | tail _ hlast ih =>
    obtain ⟨hready, hgrows⟩ := ih
    obtain ⟨hready', hgrows'⟩ := hlast.grows hready
    exact ⟨hready', hgrows.trans hgrows'⟩

/-- The loop ends where no item starts. -/
theorem parseItems_of_turns (h : Turns ruleName isNested s s')
    (hend : startsItem (peek s'.pos) = false) :
    ∃ fuel, parseItems ruleName isNested fuel s = some s' := by
  induction h using Relation.ReflTransGen.head_induction_on with
  | refl =>
    refine ⟨1, ?_⟩
    rw [parseItems_succ, if_neg (by rw [hend]; decide)]
  | head hturn _ ih =>
    obtain ⟨fuel, hitems⟩ := ih
    obtain ⟨hstart, fuel', hstep⟩ := hturn
    refine ⟨max fuel fuel' + 1, ?_⟩
    rw [parseItems_succ, if_pos hstart, itemStep_mono hstep (Nat.le_max_right _ _),
      Option.bind_some]
    exact parseItems_mono hitems (Nat.le_max_left _ _)

/-! ### What names and rules stand for -/

/-- The words of the names of a grammar. -/
abbrev Meaning := Text → Option (Language Nat)

/-- The rules that were added between two states are those of the grammar, and its names mean what
they should. -/
structure Fulfils (M : Meaning) (G : Rules) (P Q : Parser) : Prop where
  rules : ∀ id, P.count ≤ id → id < Q.count → Q.IsGenerated id → G.rule id = Q.ruleAt id
  words : ∀ name id, (SymbolName.word name, id) ∈ Q.symbolIds →
    ∀ l ∈ M name, Cfg.language G.alts [.ref id] = l

theorem IsGenerated.mono {P Q : Parser} {id : Nat} (h : P.IsGenerated id)
    (hPQ : P.symbolIds <+: Q.symbolIds) : Q.IsGenerated id := by
  obtain ⟨base, k, hmem⟩ := h
  exact ⟨base, k, hPQ.subset hmem⟩

theorem Fulfils.left (h : Fulfils M G P R) (hQR : Grows none Q R) : Fulfils M G P Q := by
  constructor
  case rules =>
    intro id hid hid' hgen
    rw [h.rules id hid (lt_of_lt_of_le hid' hQR.count_le) (hgen.mono hQR.names),
      hQR.ruleAt_eq hid']
  case words => exact fun name id hmem => h.words name id (hQR.names.subset hmem)

theorem Fulfils.right (h : Fulfils M G P R) (hPQ : P.count ≤ Q.count) : Fulfils M G Q R :=
  ⟨fun id hid => h.rules id (hPQ.trans hid), h.words⟩

/-- The names that were added between two states mean something. -/
def Known (M : Meaning) (P Q : Parser) : Prop :=
  ∀ name id, (SymbolName.word name, id) ∈ Q.symbolIds →
    (SymbolName.word name, id) ∈ P.symbolIds ∨ (M name).isSome

theorem Known.refl (M : Meaning) (P : Parser) : Known M P P := fun _ _ h => .inl h

theorem Known.trans (h : Known M P Q) (h' : Known M Q R) : Known M P R := by
  intro name id hmem
  rcases h' name id hmem with hmem | hsome
  · exact h name id hmem
  · exact .inr hsome

/-! ### Items and sequences -/

/-- A text is read as an item, and this stands for the words of a language. -/
structure IsItem (M : Meaning) (t : Text) (l : Language Nat) : Prop where
  starts : startsItem (peek t) = true
  read : ∀ ruleName isNested (s : SequenceState) rest, Ready s → s.pos = t ++ rest →
    isWordChar (peek rest) = false → ∃ P item,
      Turns ruleName isNested s (s.push P (s.rule ++ item) (parseSpace isNested false rest)) ∧
        item ≠ [] ∧ Flat item ∧ Known M s.parser P ∧
          ∀ G, Fulfils M G s.parser P → Cfg.language G.alts (symbols item) = l

/-- A text is read as items in a row. -/
structure IsSequence (M : Meaning) (t : Text) (l : Language Nat) : Prop where
  starts : startsItem (peek t) = true
  read : ∀ ruleName isNested (s : SequenceState) rest, Ready s → s.pos = t ++ rest →
    isWordChar (peek rest) = false → ∃ s' item, Turns ruleName isNested s s' ∧
      s'.pos = parseSpace isNested false rest ∧ s'.rule = s.rule ++ item ∧ Flat item ∧ Tidy item ∧
        Known M s.parser s'.parser ∧
          ∀ G, Fulfils M G s.parser s'.parser → Cfg.language G.alts (symbols item) = l

theorem IsItem.sequence (h : IsItem M t l) : IsSequence M t l := by
  refine ⟨h.starts, fun ruleName isNested s rest hs hpos hrest => ?_⟩
  obtain ⟨P, item, hturns, _, hflat, hknown, hlanguage⟩ :=
    h.read ruleName isNested s rest hs hpos hrest
  have hready := (turns_grow hturns hs).1
  have htidy := hready.good.2.item
  rw [SequenceState.push, List.drop_left] at htidy
  exact ⟨_, item, hturns, rfl, rfl, hflat, htidy, hknown, hlanguage⟩

theorem peek_append_of_starts (h : startsItem (peek t) = true) (rest : Text) :
    peek (t ++ rest) = peek t := by
  apply peek_append
  intro hzero
  rw [hzero] at h
  cases h

/-- A text that starts with no blank, comment or end of a line. -/
def Solid (t : Text) : Prop :=
  peek t ≠ byte ' ' ∧ peek t ≠ byte '\t' ∧ peek t ≠ byte '#' ∧ peek t ≠ byte '\r' ∧
    peek t ≠ byte '\n'

instance : DecidablePred Solid := fun t => by
  unfold Solid
  infer_instance

theorem solid_cons (h : Solid [b]) (t : Text) : Solid (b :: t) := h

theorem solid_of_starts (h : startsItem (peek t) = true) : Solid t := by
  refine ⟨?_, ?_, ?_, ?_, ?_⟩
  all_goals
    intro hpeek
    rw [hpeek] at h
    cases h

theorem Solid.append (h : Solid t) (hne : t ≠ []) (rest : Text) : Solid (t ++ rest) := by
  cases t with
  | nil => exact absurd rfl hne
  | cons b t => exact h

theorem parseSpace_solid (h : Solid t) (newlineOk : Bool) : parseSpace newlineOk false t = t := by
  cases t with
  | nil => rfl
  | cons c t =>
    obtain ⟨hspace, htab, hcomment, hreturn, hnewline⟩ := h
    rw [peek, List.headD_cons] at hspace htab hcomment hreturn hnewline
    have hblank : ¬ (c = byte ' ' ∨ c = byte '\t' ∨
        newlineOk = true ∧ (c = byte '\r' ∨ c = byte '\n')) := by
      rintro (h | h | ⟨_, h | h⟩)
      exacts [hspace h, htab h, hreturn h, hnewline h]
    have hinside : ¬ (false = true ∧ ¬ (c = byte '\r' ∨ c = byte '\n')) :=
      fun h => Bool.false_ne_true h.1
    rw [parseSpace, if_neg hcomment, if_neg hblank, if_neg hinside, ite_self]

theorem parseSpace_spaces (newlineOk : Bool) (n : Nat) (t : Text) :
    parseSpace newlineOk false (List.replicate n (byte ' ') ++ t) =
      parseSpace newlineOk false t := by
  induction n with
  | zero => rfl
  | succ n ih =>
    rw [List.replicate_succ, List.cons_append, parseSpace]
    exact ih

/-- Spaces between two sequences. -/
theorem IsSequence.append (h : IsSequence M t l) (h' : IsSequence M t' l') (n : Nat) :
    IsSequence M (t ++ (List.replicate (n + 1) (byte ' ') ++ t')) (l * l') := by
  constructor
  case starts =>
    rw [peek_append_of_starts h.starts]
    exact h.starts
  case read =>
    intro ruleName isNested s rest hs hpos hrest
    rw [List.append_assoc, List.append_assoc] at hpos
    obtain ⟨s₁, item, hturns, hpos₁, hrule, hflat, htidy, hknown, hlanguage⟩ :=
      h.read ruleName isNested s _ hs hpos (by rfl)
    obtain ⟨hs₁, hgrows⟩ := turns_grow hturns hs
    have hsolid : Solid (t' ++ rest) := by
      apply solid_of_starts
      rw [peek_append_of_starts h'.starts]
      exact h'.starts
    rw [parseSpace_spaces, parseSpace_solid hsolid] at hpos₁
    obtain ⟨s₂, item', hturns', hpos₂, hrule', hflat', htidy', hknown', hlanguage'⟩ :=
      h'.read ruleName isNested s₁ rest hs₁ hpos₁ hrest
    obtain ⟨_, hgrows'⟩ := turns_grow hturns' hs₁
    refine ⟨s₂, item ++ item', hturns.trans hturns', hpos₂, ?_, hflat.append hflat',
      htidy.append htidy', hknown.trans hknown', fun G hG => ?_⟩
    · rw [hrule', hrule, List.append_assoc]
    · rw [symbols_append hflat (not_modifier_of_tidy htidy'), Cfg.language_append,
        hlanguage G (hG.left hgrows'), hlanguage' G (hG.right hgrows.count_le)]

theorem IsSequence.cons (h : IsItem M t l) (h' : IsSequence M t' l') :
    IsSequence M (t ++ byte ' ' :: t') (l * l') := h.sequence.append h' 0

/-! ### Alternates and groups -/

/-- What may follow alternates: in a group its bracket, else the end of the line. -/
structure Closes (isNested : Bool) (rest : Text) : Prop where
  notWord : isWordChar (peek rest) = false
  next : peek (parseSpace isNested false rest) = if isNested then byte ')' else byte '\n'

theorem Closes.ends (h : Closes isNested rest) :
    startsItem (peek (parseSpace isNested false rest)) = false ∧
      peek (parseSpace isNested false rest) ≠ byte '|' := by
  rw [h.next]
  cases isNested <;> decide

/-- A text is read as alternates. -/
structure IsAlternates (M : Meaning) (t : Text) (l : Language Nat) : Prop where
  starts : startsItem (peek t) = true ∨ peek t = byte '|'
  read : ∀ ruleName isNested (P : Parser) rule rest, P.WF → P.Numbered → Tidy rule →
    P.Named rule → Closes isNested rest → ∃ s ess,
      (∃ fuel, parseSequences ruleName isNested fuel P rule (t ++ rest) = some s) ∧
        s.pos = parseSpace isNested false rest ∧ ess ≠ [] ∧
          s.rule = rule ++ joinAlternates ess ∧ (∀ es ∈ ess, Flat es) ∧ Known M P s.parser ∧
            ∀ G, Fulfils M G P s.parser → ∀ w, w ∈ l ↔
              ∃ es ∈ ess, w ∈ Cfg.language G.alts (symbols es)

theorem IsAlternates.solid (h : IsAlternates M t l) (rest : Text) : Solid (t ++ rest) := by
  rcases h.starts with hstart | hbar
  · apply solid_of_starts
    rw [peek_append_of_starts hstart]
    exact hstart
  · have hzero : peek t ≠ 0 := by
      rw [hbar]
      decide
    rw [Solid, peek_append hzero, hbar]
    decide

theorem ready_start {P : Parser} (hP : P.WF) (hnum : P.Numbered) (htidy : Tidy rule)
    (hnamed : P.Named rule) (pos : Text) : Ready ⟨P, rule, rule.length, pos⟩ :=
  ⟨⟨hP, split_end htidy hnamed⟩, hnum⟩

/-- One sequence. -/
theorem IsSequence.alternates (h : IsSequence M t l) : IsAlternates M t l := by
  refine ⟨.inl h.starts, fun ruleName isNested P rule rest hP hnum htidy hnamed hrest => ?_⟩
  obtain ⟨s, item, hturns, hpos, hrule, hflat, _, hknown, hlanguage⟩ :=
    h.read ruleName isNested _ rest (ready_start hP hnum htidy hnamed (t ++ rest)) rfl hrest.notWord
  obtain ⟨hend, hbar⟩ := hrest.ends
  rw [← hpos] at hend hbar
  obtain ⟨fuel, hitems⟩ := parseItems_of_turns hturns hend
  refine ⟨s, [item], ⟨fuel + 1, ?_⟩, hpos, List.cons_ne_nil _ _, hrule, ?_, hknown, ?_⟩
  · rw [parseSequences, hitems, Option.bind_some, if_neg hbar]
  · intro es hes
    rwa [List.mem_singleton.1 hes]
  · intro G hG w
    rw [← hlanguage G hG]
    simp only [List.mem_singleton, exists_eq_left]

/-- The alternates behind the first. -/
theorem IsAlternates.behind (h : IsAlternates M t l) {s : SequenceState} (hs : Ready s)
    (hturns : Turns ruleName isNested ⟨P, rule, rule.length, src⟩ s)
    (hpos : s.pos = byte '|' :: byte ' ' :: (t ++ rest)) (hrule : s.rule = rule ++ item)
    (hflat : Flat item) (hknown : Known M P s.parser) (hgrows : Grows none P s.parser)
    (hlanguage : ∀ G, Fulfils M G P s.parser → Cfg.language G.alts (symbols item) = l')
    (hrest : Closes isNested rest) : ∃ s' ess,
      (∃ fuel, parseSequences ruleName isNested fuel P rule src = some s') ∧
        s'.pos = parseSpace isNested false rest ∧ ess ≠ [] ∧
          s'.rule = rule ++ joinAlternates ess ∧ (∀ es ∈ ess, Flat es) ∧ Known M P s'.parser ∧
            ∀ G, Fulfils M G P s'.parser → ∀ w, w ∈ l' + l ↔
              ∃ es ∈ ess, w ∈ Cfg.language G.alts (symbols es) := by
  obtain ⟨hwf, htidy, hnamed⟩ := bar_good hs.good
  obtain ⟨s', ess, ⟨fuel', hsequences⟩, hpos', hne, hrule', hess, hknown', hlanguage'⟩ :=
    h.read ruleName isNested s.parser _ rest hwf hs.numbered htidy hnamed hrest
  have hbar : peek s.pos = byte '|' := by
    rw [hpos]
    rfl
  obtain ⟨fuel, hitems⟩ := parseItems_of_turns hturns (by rw [hbar]; decide)
  have hnext : parseSpace true false s.pos.tail = t ++ rest := by
    rw [hpos, List.tail_cons]
    exact (parseSpace_spaces true 1 _).trans (parseSpace_solid (h.solid rest) true)
  have hgrows' := (parse_grows fuel').2.1 _ _ _ _ _ _ hwf htidy hnamed hsequences
  refine ⟨s', item :: ess, ⟨max fuel fuel' + 1, ?_⟩, hpos', List.cons_ne_nil _ _, ?_, ?_,
    hknown.trans hknown', fun G hG w => ?_⟩
  · rw [parseSequences, parseItems_mono hitems (Nat.le_max_left _ _), Option.bind_some, if_pos hbar,
      hnext]
    exact parseSequences_mono hsequences (Nat.le_max_right _ _)
  · rw [hrule', hrule]
    cases ess with
    | nil => exact absurd rfl hne
    | cons es ess =>
      rw [joinAlternates, List.append_assoc, List.append_assoc]
      rfl
  · exact List.forall_mem_cons.2 ⟨hflat, hess⟩
  · rw [Language.mem_add, List.exists_mem_cons_iff, hlanguage G (hG.left hgrows'),
      hlanguage' G (hG.right hgrows.count_le)]

def barText : Text := [byte ' ', byte '|', byte ' ']

theorem IsAlternates.bar (h : IsSequence M t l) (h' : IsAlternates M t' l') :
    IsAlternates M (t ++ (barText ++ t')) (l + l') := by
  constructor
  case starts =>
    rw [peek_append_of_starts h.starts]
    exact .inl h.starts
  case read =>
    intro ruleName isNested P rule rest hP hnum htidy hnamed hrest
    have hready := ready_start hP hnum htidy hnamed (t ++ (barText ++ t') ++ rest)
    obtain ⟨s, item, hturns, hpos, hrule, hflat, _, hknown, hlanguage⟩ :=
      h.read ruleName isNested _ (barText ++ t' ++ rest) hready (by simp) (by rfl)
    obtain ⟨hs, hgrows⟩ := turns_grow hturns hready
    have hpos' : s.pos = byte '|' :: byte ' ' :: (t' ++ rest) :=
      hpos.trans ((parseSpace_spaces isNested 1 _).trans
        (parseSpace_solid (solid_cons (by decide) _) isNested))
    exact h'.behind hs hturns hpos' hrule hflat hknown hgrows hlanguage hrest

/-- A rule stands for what its alternates stand for. -/
theorem language_rule {G : Rules} {id : Nat}
    (hrule : G.rule id = joinAlternates ess ++ [⟨.END, 0⟩]) (hne : ess ≠ [])
    (hflat : ∀ es ∈ ess, Flat es)
    (hl : ∀ w, w ∈ l ↔ ∃ es ∈ ess, w ∈ Cfg.language G.alts (symbols es)) :
    Cfg.language G.alts [.ref id] = l := by
  ext w
  rw [hl w, Cfg.mem_language_ref, alts_join hrule hne hflat]
  constructor
  · rintro ⟨_, ⟨es, hes, rfl⟩, hw⟩
    exact ⟨es, hes, hw⟩
  · rintro ⟨es, hes, hw⟩
    exact ⟨_, ⟨es, hes, rfl⟩, hw⟩

/-- The text of a group. -/
def groupText (n : Nat) (t : Text) (k : Nat) : Text :=
  byte '(' :: (List.replicate n (byte ' ') ++ t ++ List.replicate k (byte ' ') ++ [byte ')'])

theorem IsAlternates.group (h : IsAlternates M t l) (n k : Nat) :
    IsItem M (groupText n t k) l := by
  refine ⟨rfl, fun ruleName isNested s rest hs hpos hrest => ?_⟩
  have hgen : s.parser.generateSymbolId ruleName =
      (s.parser.count, s.parser.generated ruleName) := generateSymbolId_eq hs.good.1 ruleName
  have hgrows := generated_grows s.parser ruleName
  have hclose : Closes true (List.replicate k (byte ' ') ++ byte ')' :: rest) := by
    constructor
    case notWord => cases k <;> rfl
    case next => rw [parseSpace_spaces, parseSpace_solid (solid_cons (by decide) _)]; rfl
  obtain ⟨s', ess, ⟨fuel, hsequences⟩, hpos', hne, hrule, hflat, hknown, hlanguage⟩ :=
    h.read ruleName true (s.parser.generated ruleName) [] _ (hs.good.1.generated ruleName)
      (hgrows.numbered hs.numbered) tidy_nil (named_nil _) hclose
  have hsub := (parse_grows fuel).2.1 _ _ _ _ _ _ (hs.good.1.generated ruleName) tidy_nil
    (named_nil _) hsequences
  have hcount : s.parser.count + 1 ≤ s'.parser.count :=
    (count_generated s.parser ruleName) ▸ hsub.count_le
  have hinside : parseSpace true false s.pos.tail =
      t ++ (List.replicate k (byte ' ') ++ byte ')' :: rest) := by
    rw [hpos, groupText, List.cons_append, List.tail_cons, List.append_assoc, List.append_assoc,
      List.append_assoc, parseSpace_spaces]
    exact parseSpace_solid (h.solid _) true
  have hbracket : s'.pos = byte ')' :: rest := by
    rw [hpos', parseSpace_spaces, parseSpace_solid (solid_cons (by decide) _)]
  have hpeek : peek s.pos = byte '(' := by
    rw [hpos]
    rfl
  have hstep : itemStep ruleName isNested (fuel + 1) s = some (s.push
      (s'.parser.addRule s.parser.count (s'.rule ++ [⟨.END, 0⟩]))
      (s.rule ++ [⟨.RULE_REF, s.parser.count⟩]) (parseSpace isNested false rest)) := by
    rw [itemStep, hpeek, hgen, hinside, parseAlternates, hsequences]
    change (if peek s'.pos = byte ')' then
      some (s.push _ _ (parseSpace isNested false s'.pos.tail)) else none) = _
    rw [hbracket]
    rfl
  refine ⟨_, [⟨.RULE_REF, s.parser.count⟩], .single ⟨by rw [hpeek]; decide, _, hstep⟩,
    List.cons_ne_nil _ _, flat_single rfl, ?_, fun G hG => ?_⟩
  · intro name id hmem
    rcases hknown name id hmem with hmem | hsome
    · rcases List.mem_append.1 hmem with hmem | hmem
      · exact .inl hmem
      · cases List.mem_singleton.1 hmem
    · exact .inr hsome
  · have hmem : (SymbolName.generated ruleName s.parser.count, s.parser.count) ∈
        s'.parser.symbolIds :=
      hsub.names.subset (List.mem_append_right _ (List.mem_singleton.2 rfl))
    have hrule' : G.rule s.parser.count = joinAlternates ess ++ [⟨.END, 0⟩] := by
      rw [hG.rules s.parser.count (Nat.le_refl _) hcount ⟨_, _, hmem⟩, ruleAt_addRule, if_pos rfl,
        hrule, List.nil_append]
    have hinner : Fulfils M G (s.parser.generated ruleName) s'.parser := by
      constructor
      case rules =>
        intro id hid hid' hgenerated
        rw [count_generated] at hid
        rw [hG.rules id (by omega) hid' hgenerated, ruleAt_addRule, if_neg (by omega)]
      case words => exact hG.words
    exact language_rule hrule' hne hflat (hlanguage G hinner)

/-! ### Names -/

theorem takeChars_append {p : Nat → Bool} (h : ∀ c ∈ t, p c = true)
    (hrest : p (peek rest) = false) :
    takeChars p (t ++ rest) = (t, rest) := by
  induction t with
  | nil =>
    cases rest with
    | nil => rfl
    | cons c rest =>
      rw [peek, List.headD_cons] at hrest
      rw [List.nil_append, takeChars, if_neg (by rw [hrest]; decide)]
  | cons c t ih =>
    obtain ⟨hc, ht⟩ := List.forall_mem_cons.1 h
    rw [List.cons_append, takeChars, if_pos hc, ih ht]

/-- The text of a name. -/
structure IsName (t : Text) : Prop where
  nonempty : t ≠ []
  word : ∀ c ∈ t, isWordChar c = true

theorem IsName.peek (h : IsName t) (rest : Text) : isWordChar (peek (t ++ rest)) = true := by
  cases t with
  | nil => exact absurd rfl h.nonempty
  | cons c t => exact h.word c List.mem_cons_self

theorem IsName.parseName (h : IsName t) (hrest : isWordChar (Grammar.peek rest) = false) :
    parseName (t ++ rest) = some (t, rest) := by
  rw [Grammar.parseName, takeChars_append h.word hrest]
  exact if_neg h.nonempty

theorem mem_getSymbolId {P : Parser} {id : Nat}
    (hmem : (SymbolName.word name', id) ∈ (P.getSymbolId name).2.symbolIds) :
    (SymbolName.word name', id) ∈ P.symbolIds ∨ name' = name := by
  rw [getSymbolId] at hmem
  cases hl : P.lookup (.word name) with
  | some id' =>
    rw [hl] at hmem
    exact .inl hmem
  | none =>
    rw [hl] at hmem
    rcases List.mem_append.1 hmem with hmem | hmem
    · exact .inl hmem
    · cases List.mem_singleton.1 hmem
      exact .inr rfl

theorem getSymbolId_known (P : Parser) (h : (M name).isSome) :
    Known M P (P.getSymbolId name).2 := by
  intro name' id hmem
  rcases mem_getSymbolId hmem with hmem | rfl
  · exact .inl hmem
  · exact .inr h

theorem isItem_name (h : IsName t) (hl : M t = some l) : IsItem M t l := by
  have hword := h.peek []
  rw [List.append_nil] at hword
  have hno {c : Nat} (hc : isWordChar c = true) : startsItem c = true ∧ c ≠ quote ∧
      c ≠ byte '[' := by
    refine ⟨startsItem_of (.inr (.inr (.inl hc))), ?_, ?_⟩
    all_goals
      rintro rfl
      exact absurd hc (by decide)
  refine ⟨(hno hword).1, fun ruleName isNested s rest hs hpos hrest => ?_⟩
  have hword' := h.peek rest
  rw [← hpos] at hword'
  obtain ⟨hstart, hquote, hclass⟩ := hno hword'
  have hstep : itemStep ruleName isNested 0 s = some (s.push (s.parser.getSymbolId t).2
      (s.rule ++ [⟨.RULE_REF, (s.parser.getSymbolId t).1⟩]) (parseSpace isNested false rest)) := by
    rw [itemStep]
    dsimp only
    rw [if_neg hquote, if_neg hclass, if_pos hword', hpos, h.parseName hrest]
    rfl
  refine ⟨_, _, .single ⟨hstart, 0, hstep⟩, List.cons_ne_nil _ _, flat_single rfl,
    getSymbolId_known s.parser (by rw [hl]; rfl), fun G hG => ?_⟩
  exact hG.words t _ (getSymbolId_lt hs.numbered t).2 l hl

/-! ### Operators -/

/-- The words of a language one behind the other, as often as the bounds say. -/
def powers (l : Language Nat) (m : Nat) (n : Option Nat) : Language Nat :=
  {w | ∃ k, InRange m n k ∧ w ∈ l ^ k}

/-- A text is read as an operator. -/
structure IsOperator (op : Text) (m : Nat) (n : Option Nat) : Prop where
  nonempty : op ≠ []
  solid : Solid op
  notWord : isWordChar (peek op) = false
  read : ∀ isNested rest, operatorAt isNested (op ++ rest) = some (m, n) ∧
    ∀ ruleName (s : SequenceState), s.pos = op ++ rest → s.operate ruleName isNested =
      s.repeated ruleName m (maxOf n) (parseSpace isNested false rest)

theorem repeated_known (hs : Good s) (h : s.repeated ruleName minTimes maxTimes pos = some s') :
    Known M s.parser s'.parser := by
  obtain ⟨⟨P, rule⟩, hr, rfl⟩ := Option.map_eq_some_iff.1 h
  obtain ⟨_, hnames, _, _⟩ := handleRepetitions_eq hs.1 hs.2 hr
  intro name id hmem
  dsimp only at hmem
  rw [hnames] at hmem
  rcases List.mem_append.1 hmem with hmem | hmem
  · exact .inl hmem
  · obtain ⟨_, _, h⟩ := List.mem_map.1 hmem
    cases h

theorem repeated_eq (hs : Good s) (h : s.repeated ruleName minTimes maxTimes pos = some s') :
    s' = ⟨s'.parser, s.rule.take s.lastSymStart ++ s'.item, s.lastSymStart, pos⟩ := by
  obtain ⟨⟨P, rule⟩, hr, rfl⟩ := Option.map_eq_some_iff.1 h
  obtain ⟨_, _, _, rfl⟩ := handleRepetitions_eq hs.1 hs.2 hr
  have hlen : (s.rule.take s.lastSymStart).length = s.lastSymStart :=
    List.length_take_of_le hs.2.le
  rw [SequenceState.item]
  dsimp only
  rw [List.drop_left' hlen]

theorem repeated_ne_nil (hs : Good s) {m : Nat} {n : Option Nat} (hmn : ∀ b ∈ n, m ≤ b)
    (hn : n ≠ some 0) (h : s.repeated ruleName m (maxOf n) pos = some s') : s'.item ≠ [] := by
  obtain ⟨⟨P, rule⟩, hr, rfl⟩ := Option.map_eq_some_iff.1 h
  obtain ⟨hitem, _, _, rfl⟩ := handleRepetitions_eq hs.1 hs.2 hr
  have hlen : (s.rule.take s.lastSymStart).length = s.lastSymStart :=
    List.length_take_of_le hs.2.le
  rw [SequenceState.item]
  dsimp only
  rw [List.drop_left' hlen]
  by_cases hopt : 0 < (if maxOf n < 0 then 1 else maxOf n - m).toNat
  · rw [if_pos hopt]
    exact List.append_ne_nil_of_right_ne_nil _ (List.cons_ne_nil _ _)
  · have hm : (m : Int) ≠ 0 := by
      cases n with
      | none => exact absurd Nat.zero_lt_one hopt
      | some b =>
        have hb := hmn b rfl
        have hzero : b ≠ 0 := fun h => hn (congrArg some h)
        rw [maxOf, Option.elim_some, if_neg (by omega)] at hopt
        omega
    rw [if_neg hm, List.replicate_succ, List.flatten_cons, List.append_assoc]
    exact List.append_ne_nil_of_left_ne_nil hitem _

theorem IsItem.operate (h : IsItem M t l) (hop : IsOperator op m n) (hmn : ∀ b ∈ n, m ≤ b)
    (hn : n ≠ some 0) : IsItem M (t ++ op) (powers l m n) := by
  constructor
  case starts =>
    rw [peek_append_of_starts h.starts]
    exact h.starts
  case read =>
    intro ruleName isNested s rest hs hpos hrest
    have hword : isWordChar (peek (op ++ rest)) = false := by
      cases op with
      | nil => exact absurd rfl hop.nonempty
      | cons c op => exact hop.notWord
    obtain ⟨P, item, hturns, hitem, hflat, hknown, hlanguage⟩ :=
      h.read ruleName isNested s (op ++ rest) hs (by rw [hpos, List.append_assoc]) hword
    obtain ⟨hs₁, hgrows⟩ := turns_grow hturns hs
    rw [parseSpace_solid (hop.solid.append hop.nonempty rest)] at hturns hs₁
    generalize hpush : s.push P (s.rule ++ item) (op ++ rest) = s₁ at hturns hs₁
    obtain ⟨rfl, hrule, hstart, hpos₁⟩ : s₁.parser = P ∧ s₁.rule = s.rule ++ item ∧
        s₁.lastSymStart = s.rule.length ∧ s₁.pos = op ++ rest := by
      rw [← hpush]
      exact ⟨rfl, rfl, rfl, rfl⟩
    have hitem₁ : s₁.item = item := by
      rw [← hpush]
      exact item_push s _ item _
    obtain ⟨hat, hoperate⟩ := hop.read isNested rest
    rw [← hpos₁] at hat
    have hstep (fuel : Nat) := (itemStep_operate s₁ ruleName fuel hat).2
    have hnone := repeated_eq_none s₁ hs₁.good ruleName m (maxOf n) (parseSpace isNested false rest)
    cases hrepeated : s₁.repeated ruleName m (maxOf n) (parseSpace isNested false rest) with
    | none => exact absurd (hitem₁.symm.trans (hnone.1 hrepeated)) hitem
    | some s₂ =>
      have hturn : Turn ruleName isNested s₁ s₂ := by
        refine ⟨(itemStep_operate s₁ ruleName 0 hat).1, 0, ?_⟩
        rw [hstep, hoperate ruleName s₁ hpos₁, hrepeated]
      have hflat₁ : Flat s₁.item := hitem₁.symm ▸ hflat
      have hgrows' := repeated_grows hs₁.good hrepeated
      have hturns₂ := hturns.tail hturn
      rw [repeated_eq hs₁.good hrepeated, hrule, hstart, List.take_left] at hturns₂
      refine ⟨s₂.parser, s₂.item, hturns₂, repeated_ne_nil hs₁.good hmn hn hrepeated,
        repeated_flat hs₁.good hflat₁ hrepeated, hknown.trans (repeated_known hs₁.good hrepeated),
        fun G hG => ?_⟩
      have hinner := hG.left (Q := s₁.parser) hgrows'
      have hright := repeated_right hs₁.good hflat₁ hmn hrepeated (G := G) fun id hid hid' =>
        hG.rules id (hgrows.count_le.trans hid) hid'
          (repeated_generated hs₁.good hrepeated hid hid')
      ext w
      rw [hright.2 w, hitem₁, hlanguage G hinner]
      rfl

end Parser

end ActQuant.Grammar
