import ActQuant.Grammar.RuleTable
import ActQuant.Lib.Dict

namespace ActQuant.Grammar
open Lib ActQuant.Grammar.Parser

/-! The rules of the converter under their names. -/

/-- `_rules`. -/
abbrev RuleMap := Hashmap Text Text

/-- `INVALID_RULE_CHARS_RE` replaced: a run of characters that no name has is one dash. -/
def escapeRun : Bool → Text → Text
  | _, [] => []
  | inRun, c :: cs =>
    if isWordChar c then c :: escapeRun false cs
    else if inRun then escapeRun true cs
    else byte '-' :: escapeRun true cs

def escapeRuleName (name : Text) : Text := escapeRun false name

/-- There is a rule of the name with another text. -/
def Taken (rules : RuleMap) (rule key : Text) : Prop :=
  rules.find key ≠ none ∧ rules.find key ≠ some rule

instance (rules : RuleMap) (rule key : Text) : Decidable (Taken rules rule key) :=
  inferInstanceAs (Decidable (_ ∧ _))

/-- The loop over the numbers behind a name; the first argument is more than there are rules. -/
def freeKey (rules : RuleMap) (rule escName : Text) : Nat → Nat → Text
  | 0, i => escName ++ decimalText i
  | fuel + 1, i =>
    if Taken rules rule (escName ++ decimalText i) then freeKey rules rule escName fuel (i + 1)
    else escName ++ decimalText i

/-- `_add_rule`. -/
def addRule (rules : RuleMap) (name rule : Text) : RuleMap × Text :=
  let escName := escapeRuleName name
  let key :=
    if Taken rules rule escName then freeKey rules rule escName (rules.entries.length + 1) 0
    else escName
  (rules.insert key rule, key)

/-- Every rule is still there. -/
def Kept (rules rules' : RuleMap) : Prop :=
  ∀ key rule, rules.find key = some rule → rules'.find key = some rule

theorem Kept.refl (rules : RuleMap) : Kept rules rules := fun _ _ h => h

theorem Kept.trans {rules rules' rules'' : RuleMap} (h : Kept rules rules')
    (h' : Kept rules' rules'') : Kept rules rules'' :=
  fun key rule hkey => h' key rule (h key rule hkey)

theorem decimalText_injective : Function.Injective decimalText := fun m n h => by
  rw [← decimal_decimalText m, h, decimal_decimalText]

/-- The loop ends at a name that no other rule has. -/
theorem not_taken_freeKey {rules : RuleMap} (fuel i : Nat)
    (hlen : rules.entries.length < fuel + i)
    (htaken : ∀ j < i, Taken rules rule (escName ++ decimalText j)) :
    ¬ Taken rules rule (freeKey rules rule escName fuel i) := by
  induction fuel generalizing i with
  | zero =>
    -- more names than rules
    exfalso
    have hinj : Function.Injective fun j => escName ++ decimalText j := fun m n h =>
      decimalText_injective (List.append_cancel_left h)
    have hnodup := (List.nodup_range (n := i)).map hinj
    have hsub : (List.range i).map (fun j => escName ++ decimalText j) ⊆
        rules.entries.map Prod.fst := by
      intro key hkey
      obtain ⟨j, hj, rfl⟩ := List.mem_map.1 hkey
      obtain ⟨rule', hfind⟩ := Option.ne_none_iff_exists'.1 (htaken j (List.mem_range.1 hj)).1
      exact List.mem_map_of_mem (Hashmap.find_eq_some.1 hfind)
    have hle := (List.subperm_of_subset hnodup hsub).length_le
    rw [List.length_map, List.length_map, List.length_range] at hle
    omega
  | succ fuel ih =>
    rw [freeKey]
    split
    case isFalse h => exact h
    case isTrue h =>
      refine ih (i + 1) (by omega) fun j hj => ?_
      rcases Nat.lt_succ_iff_lt_or_eq.1 hj with hlt | rfl
      · exact htaken j hlt
      · exact h

theorem find_addRule (rules : RuleMap) (name rule key : Text) :
    (addRule rules name rule).1.find key =
      if key = (addRule rules name rule).2 then some rule else rules.find key :=
  Hashmap.find_insert rules _ key rule

/-- What a new rule does: it has its text, and the others are kept. -/
theorem addRule_spec (rules : RuleMap) (name rule : Text) :
    (addRule rules name rule).1.find (addRule rules name rule).2 = some rule ∧
      Kept rules (addRule rules name rule).1 := by
  have hfree : ¬ Taken rules rule (addRule rules name rule).2 := by
    rw [addRule]
    dsimp only
    split
    case isTrue => exact not_taken_freeKey _ 0 (by omega) fun j hj => absurd hj (Nat.not_lt_zero j)
    case isFalse htaken => exact htaken
  constructor
  · rw [find_addRule, if_pos rfl]
  · intro key rule' hkey
    rw [find_addRule]
    split
    case isTrue heq =>
      subst heq
      rw [Taken, hkey] at hfree
      by_contra hne
      exact hfree ⟨Option.some_ne_none _, fun h => hne h.symm⟩
    case isFalse => exact hkey

theorem escapeRun_word (inRun : Bool) (name : Text) :
    ∀ c ∈ escapeRun inRun name, isWordChar c = true := by
  induction name generalizing inRun with
  | nil => exact fun c hc => absurd hc List.not_mem_nil
  | cons c cs ih =>
    rw [escapeRun]
    split
    case isTrue hc => exact List.forall_mem_cons.2 ⟨hc, ih false⟩
    case isFalse =>
      split
      case isTrue => exact ih true
      case isFalse => exact List.forall_mem_cons.2 ⟨rfl, ih true⟩

theorem escapeRuleName_ne_nil (h : name ≠ []) : escapeRuleName name ≠ [] := by
  cases name with
  | nil => exact absurd rfl h
  | cons c cs =>
    rw [escapeRuleName, escapeRun]
    split
    case isTrue => exact List.cons_ne_nil _ _
    case isFalse =>
      rw [if_neg Bool.false_ne_true]
      exact List.cons_ne_nil _ _

theorem isName_decimalText (h : IsName t) (i : Nat) : IsName (t ++ decimalText i) := by
  refine ⟨List.append_ne_nil_of_left_ne_nil h.nonempty _, fun c hc => ?_⟩
  rcases List.mem_append.1 hc with hc | hc
  · exact h.word c hc
  · have hdigit := isDigitChar_decimalText i c hc
    rw [isWordChar, decide_eq_true_eq]
    exact .inr (.inr (.inr hdigit))

theorem isName_freeKey {rules : RuleMap} (h : IsName escName) (fuel i : Nat) :
    IsName (freeKey rules rule escName fuel i) := by
  induction fuel generalizing i with
  | zero => exact isName_decimalText h i
  | succ fuel ih =>
    rw [freeKey]
    split
    case isTrue => exact ih (i + 1)
    case isFalse => exact isName_decimalText h i

theorem isName_addRule {rules : RuleMap} (h : name ≠ []) :
    IsName (addRule rules name rule).2 := by
  have hesc : IsName (escapeRuleName name) := ⟨escapeRuleName_ne_nil h, escapeRun_word false name⟩
  rw [addRule]
  dsimp only
  split
  case isTrue => exact isName_freeKey hesc _ 0
  case isFalse => exact hesc

theorem mem_addRule {rules : RuleMap} {e : Text × Text}
    (h : e ∈ (addRule rules name rule).1.entries) :
    e = ((addRule rules name rule).2, rule) ∨ e ∈ rules.entries := by
  have hfind := Hashmap.find_eq_some.2 h
  rw [find_addRule] at hfind
  split at hfind
  case isTrue heq => exact .inl (Prod.ext heq (Option.some.inj hfind).symm)
  case isFalse => exact .inr (Hashmap.find_eq_some.1 hfind)

theorem mem_keys_addRule {rules : RuleMap} (h : key ∈ rules.entries.map Prod.fst)
    (name rule : Text) : key ∈ (addRule rules name rule).1.entries.map Prod.fst := by
  obtain ⟨⟨_, rule'⟩, he, rfl⟩ := List.mem_map.1 h
  have hfind := (addRule_spec rules name rule).2 _ _ (Hashmap.find_eq_some.2 he)
  exact List.mem_map_of_mem (Hashmap.find_eq_some.1 hfind)

/-- A rule that refers to rules that are there may be added to a table. -/
theorem Parser.Table.addRule {rules : RuleMap} (h : Table rules.entries) (hname : name ≠ [])
    (hline : IsLine (fun key => key ∈ rules.entries.map Prod.fst) rule) :
    Table (Grammar.addRule rules name rule).1.entries := by
  have hkeys := fun key (hkey : key ∈ rules.entries.map Prod.fst) =>
    mem_keys_addRule hkey name rule
  constructor
  case nodup => exact (Grammar.addRule rules name rule).1.nodup
  case isName =>
    intro e he
    rcases mem_addRule he with rfl | he
    · exact isName_addRule hname
    · exact h.isName e he
  case isLine =>
    intro e he
    rcases mem_addRule he with rfl | he
    · exact hline.mono hkeys
    · exact (h.isLine e he).mono hkeys

/-- The words of a rule. -/
def languageOf (rules : RuleMap) (name : Text) : Language Nat :=
  grammarLanguage (formatGrammar rules.entries) name

def meaning (rules : RuleMap) : Meaning := fun name => some (languageOf rules name)

theorem isItem_rule (rules : RuleMap) (h : IsName name) :
    IsItem (meaning rules) name (languageOf rules name) := isItem_name h rfl

/-- A rule that was added stands for its text. -/
theorem language_addRule {rules final : RuleMap} (hfinal : Table final.entries)
    (hkept : Kept (addRule rules name rule).1 final) (h : IsAlternates (meaning final) rule l) :
    languageOf final (addRule rules name rule).2 = l := by
  have hfind := hkept _ _ (addRule_spec rules name rule).1
  exact hfinal.language (Hashmap.find_eq_some.1 hfind)
    (fun name' l hl => (Option.some.inj hl).symm) h

end ActQuant.Grammar
