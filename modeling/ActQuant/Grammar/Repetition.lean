import ActQuant.Grammar.RepeatRules

namespace ActQuant.Grammar
open Lib

/-! The calls of the parser, and what each leaves alone. -/

namespace Parser

/-! ### States that grow -/

/-- The names have the numbers of their places. -/
def Numbered (P : Parser) : Prop := P.symbolIds.map (fun kv => kv.2) = List.range P.count

/-- A state with more names, and the rules of the old ones but for its own. -/
structure Grows (own : Option Nat) (P Q : Parser) : Prop where
  names : P.symbolIds <+: Q.symbolIds
  numbered : P.Numbered → Q.Numbered
  rules : ∀ id < P.count, own ≠ some id → Q.ruleAt id = P.ruleAt id

theorem Grows.refl (own : Option Nat) (P : Parser) : Grows own P P :=
  ⟨List.prefix_refl _, fun h => h, fun _ _ _ => rfl⟩

theorem Grows.count_le (h : Grows own P Q) : P.count ≤ Q.count := h.names.length_le

theorem Grows.trans (h : Grows own P Q) (h' : Grows own Q R) : Grows own P R :=
  ⟨h.names.trans h'.names, fun hn => h'.numbered (h.numbered hn), fun id hid hown =>
    (h'.rules id (lt_of_lt_of_le hid h.count_le) hown).trans (h.rules id hid hown)⟩

theorem Grows.ruleAt_eq {id : Nat} (h : Grows none P Q) (hid : id < P.count) :
    Q.ruleAt id = P.ruleAt id := h.rules id hid (by simp)

theorem Grows.weaken (h : Grows none P Q) (own : Option Nat) : Grows own P Q :=
  ⟨h.names, h.numbered, fun _ hid _ => h.ruleAt_eq hid⟩

theorem numbered_concat {P : Parser} (h : P.Numbered) (name : SymbolName) :
    Numbered { P with symbolIds := P.symbolIds ++ [(name, P.symbolIds.length)] } := by
  change _ = List.range (P.symbolIds ++ [(name, P.symbolIds.length)]).length
  rw [List.map_append, h, List.length_append]
  exact List.range_succ.symm

theorem getSymbolId_grows (P : Parser) (name : Text) : Grows none P (P.getSymbolId name).2 := by
  rw [getSymbolId]
  cases P.lookup (.word name) with
  | some id => exact .refl _ _
  | none => exact ⟨List.prefix_append _ _, fun h => numbered_concat h _, fun _ _ _ => rfl⟩

theorem getSymbolId_lt {P : Parser} (h : P.Numbered) (name : Text) :
    (P.getSymbolId name).1 < (P.getSymbolId name).2.count ∧
      (SymbolName.word name, (P.getSymbolId name).1) ∈ (P.getSymbolId name).2.symbolIds := by
  rw [getSymbolId]
  cases hl : P.lookup (.word name) with
  | some id =>
    obtain ⟨l₁, l₂, hsplit, -⟩ := List.lookup_eq_some_iff.1 hl
    have hmem : (SymbolName.word name, id) ∈ P.symbolIds := by
      rw [hsplit]
      exact List.mem_append_right _ List.mem_cons_self
    have hid : id ∈ P.symbolIds.map fun kv => kv.2 := List.mem_map_of_mem hmem
    rw [h, List.mem_range] at hid
    exact ⟨hid, hmem⟩
  | none =>
    refine ⟨?_, List.mem_append_right _ (List.mem_singleton.2 rfl)⟩
    rw [count, List.length_append]
    exact Nat.lt_succ_self _

theorem generated_grows (P : Parser) (base : Text) : Grows none P (P.generated base) :=
  ⟨List.prefix_append _ _, fun h => numbered_concat h _, fun _ _ _ => rfl⟩

theorem addRule_grows (P : Parser) (id : Nat) (rule : List Element) :
    Grows (some id) P (P.addRule id rule) := by
  refine ⟨List.prefix_refl _, fun h => h, fun id' _ hid' => ?_⟩
  rw [ruleAt_addRule, if_neg fun h => hid' (congrArg some h.symm)]

/-- A fresh rule is no rule of before. -/
theorem Grows.fresh {id : Nat} (h : Grows (some id) P Q) (hid : P.count ≤ id) : Grows none P Q :=
  ⟨h.names, h.numbered, fun id' hid' _ => h.rules id' hid' fun heq =>
    absurd (Option.some.inj heq) (by omega)⟩

/-- The names and the rules of a repetition are new. -/
theorem handleRepetitions_grows {P : Parser} (h : P.WF) (hs : P.Split rule k)
    (hr : P.handleRepetitions ruleName rule k minTimes maxTimes = some (P', rule')) :
    Grows none P P' := by
  obtain ⟨_, hnames, hrules, _⟩ := handleRepetitions_eq h hs hr
  refine ⟨hnames ▸ List.prefix_append _ _, fun hn => ?_, fun id hid _ => ?_⟩
  · have hmap (l : List Nat) :
        (l.map fun id => (SymbolName.generated ruleName id, id)).map (fun kv => kv.2) = l := by
      rw [List.map_map]
      exact List.map_id l
    rw [Numbered, count, hnames, List.map_append, hn, hmap, List.length_append, List.length_map,
      List.length_range', List.range_eq_range', List.range_eq_range', ← List.range'_append_1,
      Nat.zero_add]
    rfl
  · rw [hrules id, if_neg (by omega)]

/-! ### One turn -/

theorem repeated_grows (hs : Good s) (h : s.repeated ruleName minTimes maxTimes pos = some s') :
    Grows none s.parser s'.parser := by
  obtain ⟨⟨P, rule⟩, hr, rfl⟩ := Option.map_eq_some_iff.1 h
  exact handleRepetitions_grows hs.1 hs.2 hr

theorem operate_grows (hs : Good s) (h : s.operate ruleName isNested = some s') :
    Grows none s.parser s'.parser := by
  rw [SequenceState.operate] at h
  split at h
  · exact repeated_grows hs h
  split at h
  · exact repeated_grows hs h
  split at h
  · exact repeated_grows hs h
  split at h
  · obtain ⟨r, -, h⟩ := Option.bind_eq_some_iff.1 h
    exact repeated_grows hs h
  · cases h

theorem itemStep_grows
    (halternates : ∀ ruleName isNested ruleId P src P' pos, P.WF →
      parseAlternates ruleName isNested ruleId fuel P src = some (P', pos) →
        Grows (some ruleId) P P')
    (hs : Good s) (h : itemStep ruleName isNested fuel s = some s') :
    Grows none s.parser s'.parser := by
  rw [itemStep] at h
  dsimp only at h
  split at h
  · obtain ⟨r, -, rfl⟩ := Option.map_eq_some_iff.1 h
    exact .refl _ _
  split at h
  · obtain ⟨r, -, rfl⟩ := Option.map_eq_some_iff.1 h
    exact .refl _ _
  split at h
  · obtain ⟨name, -, rfl⟩ := Option.map_eq_some_iff.1 h
    exact getSymbolId_grows _ _
  split at h
  · rw [generateSymbolId_eq hs.1 ruleName] at h
    obtain ⟨r, hr, h⟩ := Option.bind_eq_some_iff.1 h
    split at h
    case isTrue =>
      cases h
      have hgrows := halternates _ _ _ _ _ _ _ (hs.1.generated ruleName) hr
      exact (((generated_grows s.parser ruleName).weaken _).trans hgrows).fresh (Nat.le_refl _)
    case isFalse => cases h
  split at h
  · cases h
    exact .refl _ _
  · exact operate_grows hs h

/-- What a call leaves alone. -/
theorem parse_grows (fuel : Nat) :
    (∀ ruleName isNested ruleId P src P' pos, P.WF →
      parseAlternates ruleName isNested ruleId fuel P src = some (P', pos) →
        Grows (some ruleId) P P') ∧
    (∀ ruleName isNested P rule src s, P.WF → Tidy rule → P.Named rule →
      parseSequences ruleName isNested fuel P rule src = some s → Grows none P s.parser) ∧
    ∀ ruleName isNested s s', Good s → parseItems ruleName isNested fuel s = some s' →
      Grows none s.parser s'.parser := by
  induction fuel with
  | zero =>
    refine ⟨?_, ?_, ?_⟩
    · intro _ _ _ _ _ _ _ _ h
      cases h
    · intro _ _ _ _ _ _ _ _ _ h
      cases h
    · intro _ _ _ _ _ h
      cases h
  | succ fuel ih =>
    obtain ⟨ihalternates, ihsequences, ihitems⟩ := ih
    refine ⟨?_, ?_, ?_⟩
    · intro ruleName isNested ruleId P src P' pos hP h
      rw [parseAlternates] at h
      obtain ⟨s, hs, h⟩ := Option.map_eq_some_iff.1 h
      obtain ⟨rfl, -⟩ := Prod.mk.inj h
      have hgrows := ihsequences _ _ _ _ _ _ hP tidy_nil (named_nil _) hs
      exact (hgrows.weaken _).trans (addRule_grows _ _ _)
    · intro ruleName isNested P rule src s hP htidy hnamed h
      rw [parseSequences] at h
      obtain ⟨s₁, hs₁, h⟩ := Option.bind_eq_some_iff.1 h
      have hstart : Good ⟨P, rule, rule.length, src⟩ := ⟨hP, split_end htidy hnamed⟩
      have hfirst := ihitems _ _ _ _ hstart hs₁
      obtain ⟨hgood, _⟩ := (parse_step fuel).2.2 _ _ _ _ hstart hs₁
      split at h
      case isTrue =>
        obtain ⟨hwf, htidy', hnamed'⟩ := bar_good hgood
        exact hfirst.trans (ihsequences _ _ _ _ _ _ hwf htidy' hnamed' h)
      case isFalse =>
        cases Option.some.inj h
        exact hfirst
    · intro ruleName isNested s s' hs h
      rw [parseItems_succ] at h
      split at h
      case isTrue =>
        obtain ⟨s₁, hs₁, h⟩ := Option.bind_eq_some_iff.1 h
        have hgood := (itemStep_good (parse_step fuel).1 hs hs₁).1
        exact (itemStep_grows ihalternates hs hs₁).trans (ihitems _ _ _ _ hgood h)
      case isFalse =>
        cases Option.some.inj h
        exact .refl _ _

end Parser


/-! Every repetition of a grammar text. -/

namespace Parser

/-! ### Items -/

theorem parseLiteral_flat (fuel : Nat) {rule : List Element}
    (h : parseLiteral fuel rule pos = some (rule', pos')) :
    ∃ item, rule' = rule ++ item ∧ Flat item := by
  induction fuel generalizing rule pos with
  | zero => cases h
  | succ fuel ih =>
    rw [parseLiteral] at h
    split at h
    case isTrue =>
      obtain ⟨rfl, -⟩ := Prod.mk.inj (Option.some.inj h)
      exact ⟨[], (List.append_nil _).symm, flat_nil⟩
    case isFalse =>
      split at h
      case isTrue => cases h
      case isFalse =>
        obtain ⟨c, -, h⟩ := Option.bind_eq_some_iff.1 h
        obtain ⟨item, rfl, hitem⟩ := ih h
        exact ⟨_, List.append_assoc _ _ _, (flat_single rfl).append hitem⟩

theorem parseRanges_flat (fuel : Nat) {rule : List Element}
    (hstart : startType = .CHAR ∨ startType = .CHAR_NOT)
    (h : parseRanges startType k fuel rule pos = some (rule', pos')) :
    ∃ item, rule' = rule ++ item ∧ Flat item := by
  induction fuel generalizing rule pos with
  | zero => cases h
  | succ fuel ih =>
    rw [parseRanges] at h
    split at h
    case isTrue =>
      obtain ⟨rfl, -⟩ := Prod.mk.inj (Option.some.inj h)
      exact ⟨[], (List.append_nil _).symm, flat_nil⟩
    case isFalse =>
      split at h
      case isTrue => cases h
      case isFalse =>
        obtain ⟨c, -, h⟩ := Option.bind_eq_some_iff.1 h
        dsimp only at h
        have hchar : Flat [⟨if k < rule.length then .CHAR_ALT else startType, c.1⟩] := by
          refine flat_single ?_
          rcases hstart with rfl | rfl <;> split <;> rfl
        split at h
        case isTrue =>
          split at h
          case isTrue => cases h
          case isFalse =>
            obtain ⟨c', -, h⟩ := Option.bind_eq_some_iff.1 h
            obtain ⟨item, rfl, hitem⟩ := ih h
            rw [List.append_assoc, List.append_assoc]
            exact ⟨_, rfl, hchar.append ((flat_single rfl).append hitem)⟩
        case isFalse =>
          obtain ⟨item, rfl, hitem⟩ := ih h
          exact ⟨_, List.append_assoc _ _ _, hchar.append hitem⟩

/-- The last item of a sequence. -/
def SequenceState.item (s : SequenceState) : List Element := s.rule.drop s.lastSymStart

theorem repeated_flat (hs : Good s) (hflat : Flat s.item)
    (h : s.repeated ruleName minTimes maxTimes pos = some s') : Flat s'.item := by
  obtain ⟨⟨P, rule⟩, hr, rfl⟩ := Option.map_eq_some_iff.1 h
  obtain ⟨_, _, _, rfl⟩ := handleRepetitions_eq hs.1 hs.2 hr
  have hlen : (s.rule.take s.lastSymStart).length = s.lastSymStart :=
    List.length_take_of_le hs.2.le
  rw [SequenceState.item]
  dsimp only
  rw [List.drop_left' hlen]
  generalize (if maxTimes < 0 then 1 else maxTimes - minTimes).toNat = N
  refine Flat.append ?_ ?_
  · split
    case isTrue => exact fun _ h => absurd h List.not_mem_nil
    case isFalse => exact hflat.flatten _
  · split
    case isTrue => exact flat_single rfl
    case isFalse => exact fun _ h => absurd h List.not_mem_nil

theorem operate_flat (hs : Good s) (hflat : Flat s.item)
    (h : s.operate ruleName isNested = some s') : Flat s'.item := by
  rw [SequenceState.operate] at h
  split at h
  · exact repeated_flat hs hflat h
  split at h
  · exact repeated_flat hs hflat h
  split at h
  · exact repeated_flat hs hflat h
  split at h
  · obtain ⟨r, -, h⟩ := Option.bind_eq_some_iff.1 h
    exact repeated_flat hs hflat h
  · cases h

theorem item_push (s : SequenceState) (P : Parser) (item : List Element) (pos : Text) :
    (s.push P (s.rule ++ item) pos).item = item := List.drop_left

theorem itemStep_flat (hs : Good s) (hflat : Flat s.item)
    (h : itemStep ruleName isNested fuel s = some s') : Flat s'.item := by
  rw [itemStep] at h
  dsimp only at h
  split at h
  · obtain ⟨⟨rule, pos⟩, hr, rfl⟩ := Option.map_eq_some_iff.1 h
    obtain ⟨item, rfl, hitem⟩ := parseLiteral_flat _ hr
    rwa [item_push]
  split at h
  · obtain ⟨⟨rule, pos⟩, hr, rfl⟩ := Option.map_eq_some_iff.1 h
    obtain ⟨item, rfl, hitem⟩ := parseRanges_flat _ (by split <;> simp) hr
    rwa [item_push]
  split at h
  · obtain ⟨name, -, rfl⟩ := Option.map_eq_some_iff.1 h
    rw [item_push]
    exact flat_single rfl
  split at h
  · obtain ⟨r, -, h⟩ := Option.bind_eq_some_iff.1 h
    split at h
    case isTrue =>
      cases h
      rw [item_push]
      exact flat_single rfl
    case isFalse => cases h
  split at h
  · cases h
    rw [item_push]
    exact flat_single rfl
  · exact operate_flat hs hflat h

/-! ### Calls -/

/-- A call of `parse_alternates`, of the sequences in it, or a turn of the loop over the items. -/
inductive Call where
  | alternates (ruleName : Text) (isNested : Bool) (ruleId fuel : Nat) (P : Parser) (src : Text)
  | sequences (ruleName : Text) (isNested : Bool) (fuel : Nat) (P : Parser) (rule : List Element)
    (src : Text)
  | items (ruleName : Text) (isNested : Bool) (fuel : Nat) (s : SequenceState)

/-- The calls a call makes itself. -/
inductive Makes : Call → Call → Prop where
  | sequence (ruleName : Text) (isNested : Bool) (ruleId fuel : Nat) (P : Parser) (src : Text) :
    Makes (.alternates ruleName isNested ruleId (fuel + 1) P src)
      (.sequences ruleName isNested fuel P [] src)
  | first (ruleName : Text) (isNested : Bool) (fuel : Nat) (P : Parser) (rule : List Element)
      (src : Text) :
    Makes (.sequences ruleName isNested (fuel + 1) P rule src)
      (.items ruleName isNested fuel ⟨P, rule, rule.length, src⟩)
  | bar {ruleName : Text} {isNested : Bool} {fuel : Nat} {P : Parser} {rule : List Element}
      {src : Text} {s : SequenceState}
      (hs : parseItems ruleName isNested fuel ⟨P, rule, rule.length, src⟩ = some s)
      (hbar : peek s.pos = byte '|') :
    Makes (.sequences ruleName isNested (fuel + 1) P rule src)
      (.sequences ruleName isNested fuel s.parser (s.rule ++ [⟨.ALT, 0⟩])
        (parseSpace true false s.pos.tail))
  | next {ruleName : Text} {isNested : Bool} {fuel : Nat} {s s' : SequenceState}
      (hstart : startsItem (peek s.pos)) (hs : itemStep ruleName isNested fuel s = some s') :
    Makes (.items ruleName isNested (fuel + 1) s) (.items ruleName isNested fuel s')
  | group (ruleName : Text) (isNested : Bool) (fuel : Nat) (s : SequenceState)
      (hgroup : peek s.pos = byte '(') :
    Makes (.items ruleName isNested (fuel + 1) s)
      (.alternates ruleName true (s.parser.generateSymbolId ruleName).1 fuel
        (s.parser.generateSymbolId ruleName).2 (parseSpace true false s.pos.tail))

namespace Call

/-- The parser a call starts with. -/
def parser : Call → Parser
  | alternates _ _ _ _ P _ => P
  | sequences _ _ _ P _ _ => P
  | items _ _ _ s => s.parser

/-- The parser a call returns. -/
def result : Call → Option Parser
  | alternates ruleName isNested ruleId fuel P src =>
    (parseAlternates ruleName isNested ruleId fuel P src).map fun r => r.1
  | sequences ruleName isNested fuel P rule src =>
    (parseSequences ruleName isNested fuel P rule src).map fun s => s.parser
  | items ruleName isNested fuel s => (parseItems ruleName isNested fuel s).map fun s => s.parser

/-- What the parser keeps up in its calls. -/
def Sound : Call → Prop
  | alternates _ _ ruleId _ P _ => P.WF ∧ ruleId < P.count
  | sequences _ _ _ P rule _ => P.WF ∧ Tidy rule ∧ P.Named rule
  | items _ _ _ s => Good s ∧ Flat s.item

end Call

theorem Makes.sound (h : Makes c d) (hc : c.Sound) : d.Sound := by
  cases h with
  | sequence => exact ⟨hc.1, tidy_nil, named_nil _⟩
  | first =>
    refine ⟨⟨hc.1, split_end hc.2.1 hc.2.2⟩, ?_⟩
    rw [SequenceState.item, List.drop_length]
    exact flat_nil
  | bar hs hbar =>
    obtain ⟨hgood, _⟩ := (parse_step _).2.2 _ _ _ _ ⟨hc.1, split_end hc.2.1 hc.2.2⟩ hs
    exact bar_good hgood
  | next hstart hs => exact ⟨(itemStep_good (parse_step _).1 hc.1 hs).1, itemStep_flat hc.1 hc.2 hs⟩
  | group ruleName isNested fuel s hgroup =>
    rw [generateSymbolId_eq hc.1.1 ruleName]
    refine ⟨hc.1.1.generated ruleName, ?_⟩
    exact (count_generated s.parser ruleName).symm ▸ Nat.lt_succ_self _

/-- What a call has added is there when the call that makes it returns. -/
theorem Makes.later (h : Makes c d) (hc : c.Sound) (hQ : c.result = some Q) :
    c.parser.count ≤ d.parser.count ∧ ∃ Q', d.result = some Q' ∧ Q'.symbolIds <+: Q.symbolIds ∧
      ∀ id, d.parser.count ≤ id → id < Q'.count → Q.ruleAt id = Q'.ruleAt id := by
  cases h with
  | sequence ruleName isNested ruleId fuel P src =>
    refine ⟨Nat.le_refl _, ?_⟩
    obtain ⟨r, hr, rfl⟩ := Option.map_eq_some_iff.1 hQ
    rw [parseAlternates] at hr
    obtain ⟨s, hs, rfl⟩ := Option.map_eq_some_iff.1 hr
    refine ⟨s.parser, by rw [Call.result, hs]; rfl, List.prefix_refl _, fun id hid _ => ?_⟩
    rw [ruleAt_addRule, if_neg]
    have hown : ruleId < P.count := hc.2
    have hid' : P.count ≤ id := hid
    omega
  | first ruleName isNested fuel P rule src =>
    refine ⟨Nat.le_refl _, ?_⟩
    obtain ⟨s, hs, rfl⟩ := Option.map_eq_some_iff.1 hQ
    rw [parseSequences] at hs
    obtain ⟨s₁, hs₁, hs⟩ := Option.bind_eq_some_iff.1 hs
    refine ⟨s₁.parser, by rw [Call.result, hs₁]; rfl, ?_⟩
    split at hs
    case isTrue =>
      obtain ⟨hgood, _⟩ := (parse_step _).2.2 _ _ _ _ ⟨hc.1, split_end hc.2.1 hc.2.2⟩ hs₁
      obtain ⟨hwf, htidy, hnamed⟩ := bar_good hgood
      have hgrows := (parse_grows fuel).2.1 _ _ _ _ _ _ hwf htidy hnamed hs
      exact ⟨hgrows.names, fun _ _ hid => hgrows.ruleAt_eq hid⟩
    case isFalse =>
      cases hs
      exact ⟨List.prefix_refl _, fun _ _ _ => rfl⟩
  | bar hs hbar =>
    have hgrows := (parse_grows _).2.2 _ _ _ _ ⟨hc.1, split_end hc.2.1 hc.2.2⟩ hs
    refine ⟨hgrows.count_le, Q, ?_, List.prefix_refl _, fun _ _ _ => rfl⟩
    rw [← hQ, Call.result, Call.result, parseSequences, hs, Option.bind_some, if_pos hbar]
  | next hstart hs =>
    have hgrows := itemStep_grows (parse_grows _).1 hc.1 hs
    refine ⟨hgrows.count_le, Q, ?_, List.prefix_refl _, fun _ _ _ => rfl⟩
    rw [← hQ, Call.result, Call.result, parseItems_succ, if_pos hstart, hs, Option.bind_some]
  | group ruleName isNested fuel s hgroup =>
    have hgen : s.parser.generateSymbolId ruleName =
        (s.parser.count, s.parser.generated ruleName) := generateSymbolId_eq hc.1.1 ruleName
    rw [hgen]
    refine ⟨(generated_grows s.parser ruleName).count_le, ?_⟩
    obtain ⟨s', hs', rfl⟩ := Option.map_eq_some_iff.1 hQ
    have hnot (c : Nat) (hne : byte '(' ≠ c) : ¬ peek s.pos = c := hgroup ▸ hne
    rw [parseItems_succ, if_pos (startsItem_of (.inr (.inr (.inr (.inl hgroup)))))] at hs'
    obtain ⟨s₁, hs₁, hs'⟩ := Option.bind_eq_some_iff.1 hs'
    have hgood := (itemStep_good (parse_step fuel).1 hc.1 hs₁).1
    rw [itemStep] at hs₁
    dsimp only at hs₁
    rw [if_neg (hnot _ (by decide)), if_neg (hnot _ (by decide)), if_neg (by rw [hgroup]; decide),
      if_pos hgroup, hgen] at hs₁
    obtain ⟨r, hr, hs₁⟩ := Option.bind_eq_some_iff.1 hs₁
    refine ⟨r.1, by rw [Call.result, hr]; rfl, ?_⟩
    split at hs₁
    case isTrue =>
      cases hs₁
      have hgrows := (parse_grows fuel).2.2 _ _ _ _ hgood hs'
      exact ⟨hgrows.names, fun _ _ hid => hgrows.ruleAt_eq hid⟩
    case isFalse => cases hs₁

/-- The calls that a call makes, those that these make, and so on. -/
theorem makes_later (h : Relation.ReflTransGen Makes c d) (hc : c.Sound)
    (hQ : c.result = some Q) : d.Sound ∧ c.parser.count ≤ d.parser.count ∧
      ∃ Q', d.result = some Q' ∧ Q'.symbolIds <+: Q.symbolIds ∧
        ∀ id, d.parser.count ≤ id → id < Q'.count → Q.ruleAt id = Q'.ruleAt id := by
  induction h with
  | refl => exact ⟨hc, Nat.le_refl _, Q, hQ, List.prefix_refl _, fun _ _ _ => rfl⟩
  | tail _ hlast ih =>
    obtain ⟨hsound, hle, Q', hQ', hnames, hrules⟩ := ih
    obtain ⟨hle', Q'', hQ'', hnames', hrules'⟩ := hlast.later hsound hQ'
    refine ⟨hlast.sound hsound, hle.trans hle', Q'', hQ'', hnames'.trans hnames,
      fun id hid hid' => ?_⟩
    rw [hrules id (hle'.trans hid) (lt_of_lt_of_le hid' hnames'.length_le), hrules' id hid hid']

/-! ### The calls of a parse -/

/-- Where a parse stands between two rules. -/
inductive RulesAt (fuel : Nat) (src : Text) : Nat → Parser → Text → Prop where
  | start : RulesAt fuel src fuel ⟨[], []⟩ (parseSpace true false src)
  | rule {fuel' : Nat} {P P' : Parser} {pos pos' : Text} (h : RulesAt fuel src (fuel' + 1) P pos)
      (hpos : peek pos ≠ 0) (hrule : parseRule fuel' P pos = some (P', pos')) :
    RulesAt fuel src fuel' P' pos'

/-- The call for the alternates of a rule, behind its `::=`. -/
inductive TopCall (fuel : Nat) (src : Text) : Call → Prop where
  | rule {fuel' : Nat} {P : Parser} {pos : Text} {name : Text × Text}
      (h : RulesAt fuel src (fuel' + 1) P pos) (hpos : peek pos ≠ 0)
      (hname : parseName pos = some name) :
    TopCall fuel src (.alternates name.1 false (P.getSymbolId name.1).1 fuel'
      (P.getSymbolId name.1).2 (parseSpace true false ((parseSpace false false name.2).drop 3)))

/-- The calls while a text is parsed. -/
def Called (fuel : Nat) (src : Text) (d : Call) : Prop :=
  ∃ c, TopCall fuel src c ∧ Relation.ReflTransGen Makes c d

/-- The number of a group or a repetition. -/
def IsGenerated (P : Parser) (id : Nat) : Prop :=
  ∃ base k, (SymbolName.generated base k, id) ∈ P.symbolIds

theorem parseRule_keeps {P P' : Parser} (h : P.WF) (hnum : P.Numbered)
    (hrule : parseRule fuel P pos = some (P', pos')) : P'.Numbered ∧ P.symbolIds <+: P'.symbolIds ∧
      ∀ id, P.IsGenerated id → P'.ruleAt id = P.ruleAt id := by
  obtain ⟨name, ⟨P₂, pos₂⟩, -, halt, rfl⟩ := parseRule_eq hrule
  have hget := getSymbolId_grows P name.1
  have hwf := (getSymbolId_step h name.1).1.1
  have hgrows := (parse_grows fuel).1 _ _ _ _ _ _ _ hwf halt
  have hall := (hget.weaken _).trans hgrows
  refine ⟨hall.numbered hnum, hall.names, ?_⟩
  rintro id ⟨base, k, hmem⟩
  have hid : id ∈ P.symbolIds.map fun kv => kv.2 := List.mem_map_of_mem hmem
  rw [hnum, List.mem_range] at hid
  refine hall.rules id hid fun hown => ?_
  -- the number of the rule is that of a word
  have hword := (getSymbolId_lt hnum name.1).2
  have hnodup : ((P.getSymbolId name.1).2.symbolIds.map fun kv => kv.2).Nodup := by
    rw [hget.numbered hnum]
    exact List.nodup_range
  have hsame := List.inj_on_of_nodup_map hnodup hword (hget.names.subset hmem)
    (Option.some.inj hown)
  cases congrArg Prod.fst hsame

theorem parseRules_keeps (fuel : Nat) {P Q : Parser} (h : P.WF) (hnum : P.Numbered)
    (hrules : parseRules fuel P pos = some Q) :
    ∀ id, P.IsGenerated id → Q.ruleAt id = P.ruleAt id := by
  induction fuel generalizing P pos with
  | zero => cases hrules
  | succ fuel ih =>
    rw [parseRules] at hrules
    split at hrules
    case isTrue =>
      cases hrules
      exact fun _ _ => rfl
    case isFalse =>
      obtain ⟨⟨P₁, pos₁⟩, hrule, hrules⟩ := Option.bind_eq_some_iff.1 hrules
      obtain ⟨hnum₁, hnames, hkeep⟩ := parseRule_keeps h hnum hrule
      rintro id ⟨base, k, hmem⟩
      rw [ih (parseRule_wf h hrule) hnum₁ hrules id ⟨base, k, hnames.subset hmem⟩,
        hkeep id ⟨base, k, hmem⟩]

theorem RulesAt.sound (h : RulesAt fuel src fuel' P pos) : P.WF ∧ P.Numbered ∧
    parseRules fuel ⟨[], []⟩ (parseSpace true false src) = parseRules fuel' P pos := by
  induction h with
  | start => exact ⟨⟨fun _ h => (by cases h), fun _ _ _ h => (by cases h)⟩, rfl, rfl⟩
  | rule h hpos hrule ih =>
    obtain ⟨hwf, hnum, heq⟩ := ih
    refine ⟨parseRule_wf hwf hrule, (parseRule_keeps hwf hnum hrule).1, ?_⟩
    rw [heq, parseRules, if_neg hpos, hrule, Option.bind_some]

theorem TopCall.sound (h : TopCall fuel src c) : c.Sound := by
  cases h with
  | @rule fuel' P pos name h hpos hname =>
    obtain ⟨hwf, hnum, _⟩ := h.sound
    exact ⟨(getSymbolId_step hwf name.1).1.1, (getSymbolId_lt hnum name.1).1⟩

theorem Called.sound (h : Called fuel src d) : d.Sound := by
  obtain ⟨c, hc, hcd⟩ := h
  induction hcd with
  | refl => exact hc.sound
  | tail _ hlast ih => exact hlast.sound ih

/-- What a call has added for groups and repetitions is there when the text is parsed. -/
theorem Called.later (h : Called fuel src d) (hQ : parse fuel src = some Q) :
    ∃ Q', d.result = some Q' ∧ ∀ id, d.parser.count ≤ id → id < Q'.count → Q'.IsGenerated id →
      Q.ruleAt id = Q'.ruleAt id := by
  obtain ⟨c, hc, hcd⟩ := h
  have hsound := hc.sound
  cases hc with
  | @rule fuel' P pos name h hpos hname =>
    obtain ⟨hwf, hnum, heq⟩ := h.sound
    obtain ⟨Q₀, hQ₀, hvalid⟩ := Option.bind_eq_some_iff.1 hQ
    obtain rfl : Q₀ = Q := by
      split at hvalid
      · exact Option.some.inj hvalid
      · cases hvalid
    rw [heq, parseRules, if_neg hpos] at hQ₀
    obtain ⟨⟨P₁, pos₁⟩, hrule, hrest⟩ := Option.bind_eq_some_iff.1 hQ₀
    obtain ⟨name', r, hname', halt, rfl⟩ := parseRule_eq hrule
    cases hname.symm.trans hname'
    obtain ⟨_, _, Q', hQ', hnames, hrules⟩ := makes_later hcd hsound
      (show Call.result (.alternates _ _ _ _ _ _) = some r.1 by rw [Call.result, halt]; rfl)
    refine ⟨Q', hQ', fun id hid hid' => ?_⟩
    rintro ⟨base, k, hmem⟩
    rw [← hrules id hid hid', parseRules_keeps _ (parseRule_wf hwf hrule)
      (parseRule_keeps hwf hnum hrule).1 hrest id ⟨base, k, hnames.subset hmem⟩]

end Parser

end ActQuant.Grammar
