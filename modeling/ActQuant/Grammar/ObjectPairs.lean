import ActQuant.Grammar.BuildRepetition

namespace ActQuant.Grammar
open Lib ActQuant.Grammar.Parser
attribute [local instance] lawfulBEq_text

/-! The rules stay a table while those of an object are added. -/

def RuleMap.keys (rules : RuleMap) : List Text := rules.entries.map Prod.fst

theorem Kept.keys {rules rules' : RuleMap} (h : Kept rules rules') (hkey : key ∈ rules.keys) :
    key ∈ rules'.keys := by
  obtain ⟨⟨_, rule⟩, he, rfl⟩ := List.mem_map.1 hkey
  have hfind := h _ rule (Hashmap.find_eq_some.2 he)
  exact List.mem_map_of_mem (Hashmap.find_eq_some.1 hfind)

theorem addRule_mem_keys (rules : RuleMap) (name rule : Text) :
    (addRule rules name rule).2 ∈ (addRule rules name rule).1.keys :=
  List.mem_map_of_mem (Hashmap.find_eq_some.1 (addRule_spec rules name rule).1)

/-- A meaning for the names that have a rule. -/
def keyMeaning (rules : RuleMap) : Meaning := fun name => if name ∈ rules.keys then some 1 else none

theorem isItem_key {rules : RuleMap} (h : Table rules.entries) (hkey : key ∈ rules.keys) :
    IsItem (keyMeaning rules) key 1 := by
  obtain ⟨e, he, rfl⟩ := List.mem_map.1 hkey
  exact isItem_name (h.isName e he) (if_pos hkey)

theorem Parser.IsAlternates.isLine {rules : RuleMap} (h : IsAlternates (keyMeaning rules) t l) :
    IsLine (fun name => name ∈ rules.entries.map Prod.fst) t := by
  refine h.line.mono fun name hsome => ?_
  by_contra hkey
  have hnone : keyMeaning rules name = none := if_neg hkey
  rw [hnone] at hsome
  cases hsome

section Rests
variable {M : Meaning} {kvRuleNames : Hashmap Text Text} {name : Text} {rules : RuleMap}

theorem exists_reads_getRecursiveRefs (name : Text) (rules : RuleMap) (hspace : IsItem M spaceName 1)
    (hkv : ∀ k' ∈ k :: ks, IsItem M (kvOf kvRuleNames k') 1) (b : Bool)
    (hout : ∀ key ∈ (getRecursiveRefs kvRuleNames name rules (k :: ks) b).1.keys, IsItem M key 1) :
    ∃ l, IsSequence M (getRecursiveRefs kvRuleNames name rules (k :: ks) b).2 l := by
  have hlead := isSequence_lead (W := fun _ => 1) hspace (hkv k List.mem_cons_self) b
  rw [getRecursiveRefs] at hout ⊢
  dsimp only at hout ⊢
  by_cases hks : ks = []
  · rw [if_pos hks] at hout ⊢
    exact ⟨_, hlead⟩
  · rw [if_neg hks] at hout ⊢
    exact ⟨_, hlead.append (hout _ (addRule_mem_keys _ _ _)).sequence 0⟩

theorem table_getRecursiveRefs (name : Text) (h : Table rules.entries) (hspace : spaceName ∈ rules.keys)
    (hkv : ∀ k ∈ ks, kvOf kvRuleNames k ∈ rules.keys) (b : Bool) :
    Table (getRecursiveRefs kvRuleNames name rules ks b).1.entries := by
  induction ks generalizing b with
  | nil => exact h
  | cons k ks ih =>
    rw [getRecursiveRefs]
    dsimp only
    split
    case isTrue => exact h
    case isFalse hks =>
      have hrefs := ih (fun k' hk' => hkv k' (List.mem_cons_of_mem _ hk')) true
      have hkept := kept_getRecursiveRefs kvRuleNames name rules ks true
      obtain ⟨k', ks, rfl⟩ := List.exists_cons_of_ne_nil hks
      obtain ⟨l, hl⟩ := exists_reads_getRecursiveRefs name rules
        (isItem_key hrefs (hkept.keys hspace))
        (fun k'' hk'' => isItem_key hrefs (hkept.keys (hkv k'' (List.mem_cons_of_mem _ hk''))))
        true fun key hkey => isItem_key hrefs hkey
      exact hrefs.addRule (prefixed_rest_ne_nil name k) hl.alternates.isLine

theorem table_firstRefs (name : Text) (h : Table rules.entries) (hspace : spaceName ∈ rules.keys)
    (hkv : ∀ k ∈ ks, kvOf kvRuleNames k ∈ rules.keys) :
    Table (firstRefs kvRuleNames name rules ks).1.entries := by
  induction ks generalizing rules with
  | nil => exact h
  | cons k ks ih =>
    have hrefs := table_getRecursiveRefs name h hspace hkv false
    have hkept := kept_getRecursiveRefs kvRuleNames name rules (k :: ks) false
    rw [firstRefs]
    dsimp only
    split
    case isTrue => exact hrefs
    case isFalse =>
      exact ih hrefs (hkept.keys hspace)
        fun k' hk' => hkept.keys (hkv k' (List.mem_cons_of_mem _ hk'))

theorem exists_reads_firstRefs (hspace : IsItem M spaceName 1) (hne : ks ≠ [])
    (hkv : ∀ k ∈ ks, IsItem M (kvOf kvRuleNames k) 1)
    (hout : ∀ key ∈ (firstRefs kvRuleNames name rules ks).1.keys, IsItem M key 1) :
    ∃ l, IsAlternates M (firstRefs kvRuleNames name rules ks).2 l := by
  induction ks generalizing rules with
  | nil => exact absurd rfl hne
  | cons k ks ih =>
    rw [firstRefs] at hout ⊢
    dsimp only at hout ⊢
    by_cases hks : ks = []
    · rw [if_pos hks] at hout ⊢
      obtain ⟨l, hl⟩ := exists_reads_getRecursiveRefs name rules hspace hkv false hout
      exact ⟨l, hl.alternates⟩
    · rw [if_neg hks] at hout ⊢
      obtain ⟨l, hl⟩ := exists_reads_getRecursiveRefs name rules hspace hkv false
        fun key hkey => hout key ((kept_firstRefs _ _ _ ks).keys hkey)
      obtain ⟨l', hl'⟩ := ih hks (fun k' hk' => hkv k' (List.mem_cons_of_mem _ hk')) hout
      exact ⟨l + l', .bar hl hl'⟩

variable {properties : List (Text × Text)} {required : List Text} {additional : Option Text}

/-- The rules of an object are a table again. -/
theorem table_objectRule (h : Table rules.entries) (hspace : spaceName ∈ rules.keys)
    (hrequired : ∀ k ∈ requiredOf properties required,
      kvOf (kvRuleNamesOf properties additional) k ∈ rules.keys)
    (hoptional : ∀ k ∈ optionalOf properties required additional,
      kvOf (kvRuleNamesOf properties additional) k ∈ rules.keys) (hname : ruleName ≠ []) :
    Table (objectRule rules properties required name ruleName additional).1.entries := by
  have hrefs := table_firstRefs name h hspace hoptional
  have hkept := kept_firstRefs (kvRuleNamesOf properties additional) name rules
    (optionalOf properties required additional)
  have hitem {key : Text} (hkey : key ∈ rules.keys) := isItem_key hrefs (hkept.keys hkey)
  obtain ⟨l, hl⟩ : ∃ l, optionalOf properties required additional = [] ∧ l = 0 ∨
      optionalOf properties required additional ≠ [] ∧ IsAlternates (keyMeaning (firstRefs
        (kvRuleNamesOf properties additional) name rules
          (optionalOf properties required additional)).1)
        (firstRefs (kvRuleNamesOf properties additional) name rules
          (optionalOf properties required additional)).2 l := by
    by_cases hopt : optionalOf properties required additional = []
    · exact ⟨0, .inl ⟨hopt, rfl⟩⟩
    · obtain ⟨l, hl⟩ := exists_reads_firstRefs (hitem hspace) hopt
        (fun k hk => hitem (hoptional k hk)) fun key hkey => isItem_key hrefs hkey
      exact ⟨l, .inr ⟨hopt, hl⟩⟩
  have htext := objectText_reads (W := fun _ => 1) (hitem hspace)
    (fun k hk => hitem (hrequired k hk)) hl
  exact hrefs.addRule hname htext.alternates.isLine

end Rests

attribute [local instance] lawfulBEq_text

/-! What the rules of objects and arrays stand for. -/

/-- `RESERVED_NAMES`. -/
def reservedNames : List Text :=
  ["root", "boolean", "decimal-part", "integral-part", "number", "integer", "value", "object",
    "array", "uuid", "char", "string", "null", "date", "time", "date-time", "date-string",
    "time-string", "date-time-string"].map ascii

/-- `rule_name` in `visit`. -/
def ruleNameOf (name : Text) : Text :=
  if name ∈ reservedNames then name ++ ascii "-" else if name = [] then ascii "root" else name

theorem ruleNameOf_ne_nil (name : Text) : ruleNameOf name ≠ [] := by
  rw [ruleNameOf]
  split
  case isTrue => exact List.append_ne_nil_of_right_ne_nil _ (by decide)
  case isFalse =>
    split
    case isTrue => decide
    case isFalse h => exact h

/-- The key-value rules are rules of their own, and there already. -/
structure Given (rules : RuleMap) (properties : List (Text × Text)) (additional : Option Text) :
    Prop where
  table : Table rules.entries
  space : spaceName ∈ rules.keys
  distinct : (properties.map Prod.snd ++ additional.toList).Nodup
  known : ∀ kv ∈ properties.map Prod.snd ++ additional.toList, kv ∈ rules.keys

/-- The rule of an object accepts exactly what is meant, whatever its key-value rules are. -/
def ObjectRight (names required : List Text) (name : Text) (allowed : Bool) : Prop :=
  ∀ (rules final : RuleMap) (properties : List (Text × Text)) (additional : Option Text),
    properties.map Prod.fst = names → additional.isSome = allowed →
    Given rules properties additional → Table final.entries →
    Kept (objectRule rules properties required name (ruleNameOf name) additional).1 final →
    languageOf final (objectRule rules properties required name (ruleNameOf name) additional).2 =
      objectWords (languageOf final) (pairWords final properties required additional)

/-- The rule of an array, as `visit` writes it. -/
def arrayText (itemRule separatorRule : Text) (minItems maxItems : Nat) : Text :=
  ascii "\"[\" space " ++ (buildRepetition itemRule minItems maxItems separatorRule ++
    ascii " \"]\" space")

/-- An array around its items. -/
def arrayWords (W : Text → Language Nat) (items : Language Nat) : Language Nat :=
  ({[byte '[']} * W spaceName) * (items * ({[byte ']']} * W spaceName))

/-- The rule of an array accepts exactly as many items as the bounds say, with one separator
between neighbours. -/
def ArrayRight : Prop :=
  ∀ (rules final : RuleMap) (ruleName itemRule separatorRule : Text) (l s : Language Nat)
    (minItems maxItems : Nat), minItems ≤ maxItems → maxItems ≤ maxInt → separatorRule ≠ [] →
    IsItem (meaning final) itemRule l → IsSequence (meaning final) separatorRule s →
    Table final.entries →
    Kept (addRule rules ruleName (arrayText itemRule separatorRule minItems maxItems)).1 final →
    languageOf final
      (addRule rules ruleName (arrayText itemRule separatorRule minItems maxItems)).2 =
        arrayWords (languageOf final) (repeated s l minItems (upTo maxItems))

theorem arrayRight : ArrayRight := by
  intro rules final ruleName itemRule separatorRule l s minItems maxItems hle hint hne hitem hsep
    hfinal hkept
  have hspace := isItem_rule final isName_space
  have hbefore := IsSequence.cons (M := meaning final)
    (isItem_quoted (c := byte '[') (by decide) (by decide) (by decide) (by decide)) hspace.sequence
  have hafter := IsSequence.cons (M := meaning final)
    (isItem_quoted (c := byte ']') (by decide) (by decide) (by decide) (by decide)) hspace.sequence
  have hreads := buildRepetition_reads hbefore hafter hitem hsep hne hle hint
  refine language_addRule hfinal hkept ?_
  have htext : arrayText itemRule separatorRule minItems maxItems =
      [quote, byte '[', quote] ++ byte ' ' :: spaceName ++ (ascii " " ++
        (buildRepetition itemRule minItems maxItems separatorRule ++ (ascii " " ++
          ([quote, byte ']', quote] ++ byte ' ' :: spaceName)))) := by
    simp [arrayText, ascii, spaceName, quote, byte]
  rw [htext]
  exact hreads.alternates

section Objects
variable {rules final : RuleMap} {properties : List (Text × Text)} {required : List Text}
  {additional : Option Text} {name : Text}

theorem Given.kv {k : Text} (h : Given rules properties additional)
    (hk : k ∈ properties.map Prod.fst ∨ additional.isSome ∧ k = starName)
    (hnodup : (properties.map Prod.fst).Nodup) :
    kvOf (kvRuleNamesOf properties additional) k ∈ rules.keys := by
  refine h.known _ ?_
  by_cases hadd : additional.isSome ∧ k = starName
  · obtain ⟨hsome, rfl⟩ := hadd
    obtain ⟨kv, rfl⟩ := Option.isSome_iff_exists.1 hsome
    rw [kvOf_additional]
    exact List.mem_append_right _ List.mem_cons_self
  · obtain ⟨p, hp, rfl⟩ := List.mem_map.1 (hk.resolve_right hadd)
    have hstar : additional = none ∨ p.1 ≠ starName := by
      by_cases hnone : additional = none
      · exact .inl hnone
      · exact .inr fun heq => hadd ⟨Option.isSome_iff_ne_none.2 hnone, heq⟩
    rw [kvOf_property hnodup hp hstar]
    exact List.mem_append_left _ (List.mem_map_of_mem hp)

theorem mem_requiredOf {k : Text} (hk : k ∈ requiredOf properties required) :
    k ∈ properties.map Prod.fst := (List.mem_filter.1 hk).1

theorem mem_optionalOf {k : Text} (hk : k ∈ optionalOf properties required additional) :
    k ∈ properties.map Prod.fst ∨ additional.isSome ∧ k = starName := by
  rcases List.mem_append.1 hk with hk | hk
  · exact .inl (List.mem_filter.1 hk).1
  · split at hk
    case isTrue hsome => exact .inr ⟨hsome, List.mem_singleton.1 hk⟩
    case isFalse => exact absurd hk List.not_mem_nil

/-- The words of the rule of an object. -/
theorem language_objectRule (hgiven : Given rules properties additional)
    (hnodup : (properties.map Prod.fst).Nodup) (hfinal : Table final.entries)
    (hkept : Kept (objectRule rules properties required name ruleName additional).1 final) :
    languageOf final (objectRule rules properties required name ruleName additional).2 =
      objectWords (languageOf final) (chosen (commaWords (languageOf final)) (languageOf final)
        ((requiredOf properties required).map (kvOf (kvRuleNamesOf properties additional)))
        (marked (kvRuleNamesOf properties additional)
          (optionalOf properties required additional))) := by
  have hname {k : Text} (hk : k ∈ properties.map Prod.fst ∨ additional.isSome ∧ k = starName) :
      IsName (kvOf (kvRuleNamesOf properties additional) k) := by
    obtain ⟨e, he, heq⟩ := List.mem_map.1 (hgiven.kv hk hnodup)
    exact heq ▸ hgiven.table.isName e he
  refine language_addRule hfinal hkept (buildObjectRule_reads hfinal rules
    (fun _ hk => hname (.inl (mem_requiredOf hk))) (fun _ hk => hname (mem_optionalOf hk))
    ?_).alternates
  exact (addRule_spec _ _ _).2.trans hkept

theorem Given.table_objectRule (hgiven : Given rules properties additional)
    (hnodup : (properties.map Prod.fst).Nodup) (required : List Text) (name : Text) :
    Table (objectRule rules properties required name (ruleNameOf name) additional).1.entries :=
  Grammar.table_objectRule hgiven.table hgiven.space
    (fun _ hk => hgiven.kv (.inl (mem_requiredOf hk)) hnodup)
    (fun _ hk => hgiven.kv (mem_optionalOf hk) hnodup) (ruleNameOf_ne_nil name)

end Objects

/-- Where no property has the name of the additional ones, the rule is right. -/
theorem objectRight_of_condition {names required : List Text} (hnodup : names.Nodup)
    (h : starName ∈ names → starName ∈ required ∧ allowed = false) :
    ObjectRight names required name allowed := by
  rintro rules final properties additional rfl rfl hgiven hfinal hkept
  rw [language_objectRule hgiven hnodup hfinal hkept, chosen_eq_pairWords final hnodup]
  intro hstar
  obtain ⟨hreq, hnone⟩ := h hstar
  exact ⟨hreq, Option.not_isSome_iff_eq_none.1 (Bool.eq_false_iff.1 hnone)⟩

/-! ### Where it fails -/

/-- The name of the key-value rule of a property with its place. -/
def kvName (i : Nat) : Text := ascii "kv" ++ decimalText i

def additionalName : Text := ascii "additional"

def letterText (c : Nat) : Text := [quote, c, quote]

/-- Properties with the letter `a` for a pair, or `b` where the name is a star, and additional
ones with the letter `c`. -/
def sampleEntries (names : List Text) : List (Text × Text) :=
  (spaceName, letterText (byte 's')) :: (additionalName, letterText (byte 'c')) ::
    names.zipIdx.map fun p =>
      (kvName p.2, letterText (if p.1 = starName then byte 'b' else byte 'a'))

def sampleProperties (names : List Text) : List (Text × Text) :=
  names.zipIdx.map fun p => (p.1, kvName p.2)

theorem kvName_injective : Function.Injective kvName := fun _ _ h =>
  decimalText_injective (List.append_cancel_left h)

theorem kvName_ne (i : Nat) : kvName i ≠ spaceName ∧ kvName i ≠ additionalName := by
  constructor
  all_goals
    intro h
    cases congrArg List.head? h

theorem sampleProperties_names (names : List Text) :
    (sampleProperties names).map Prod.fst = names := by
  rw [sampleProperties, List.map_map]
  exact List.zipIdx_map_fst 0 names

theorem sampleProperties_kv (names : List Text) :
    (sampleProperties names).map Prod.snd = (List.range' 0 names.length).map kvName := by
  rw [sampleProperties, List.map_map, ← List.zipIdx_map_snd 0 names, List.map_map]
  rfl

theorem sampleEntries_keys (names : List Text) : (sampleEntries names).map Prod.fst =
    spaceName :: additionalName :: (sampleProperties names).map Prod.snd := by
  rw [sampleEntries, List.map_cons, List.map_cons, sampleProperties, List.map_map, List.map_map]
  rfl

theorem nodup_kv (names : List Text) : ((sampleProperties names).map Prod.snd).Nodup :=
  sampleProperties_kv names ▸ (List.nodup_range' 1 Nat.zero_lt_one).map kvName_injective

theorem ne_of_mem_kv {kv : Text} (h : kv ∈ (sampleProperties names).map Prod.snd) :
    kv ≠ spaceName ∧ kv ≠ additionalName := by
  rw [sampleProperties_kv] at h
  obtain ⟨i, _, rfl⟩ := List.mem_map.1 h
  exact kvName_ne i

theorem nodup_sampleEntries (names : List Text) : ((sampleEntries names).map Prod.fst).Nodup := by
  rw [sampleEntries_keys, List.nodup_cons, List.nodup_cons]
  refine ⟨?_, fun h => (ne_of_mem_kv h).2 rfl, nodup_kv names⟩
  rw [List.mem_cons]
  rintro (h | h)
  · exact absurd h (by decide)
  · exact (ne_of_mem_kv h).1 rfl

def sampleRules (names : List Text) : RuleMap := ⟨sampleEntries names, nodup_sampleEntries names⟩

theorem letterText_reads (h : 0x20 ≤ c ∧ c < 0x80 ∧ c ≠ 34 ∧ c ≠ 92) :
    IsAlternates M (letterText c) {[c]} :=
  (isItem_quoted h.1 h.2.1 h.2.2.1 h.2.2.2).sequence.alternates

theorem mem_sampleEntries {e : Text × Text} (he : e ∈ sampleEntries names) :
    ∃ c, (0x20 ≤ c ∧ c < 0x80 ∧ c ≠ 34 ∧ c ≠ 92) ∧ e.2 = letterText c := by
  rcases List.mem_cons.1 he with rfl | he
  · exact ⟨byte 's', by decide, rfl⟩
  rcases List.mem_cons.1 he with rfl | he
  · exact ⟨byte 'c', by decide, rfl⟩
  obtain ⟨p, _, rfl⟩ := List.mem_map.1 he
  refine ⟨_, ?_, rfl⟩
  split <;> decide

theorem table_sampleRules (names : List Text) : Table (sampleRules names).entries := by
  constructor
  case nodup => exact nodup_sampleEntries names
  case isName =>
    have hnames : ∀ key ∈ (sampleEntries names).map Prod.fst, IsName key := by
      rw [sampleEntries_keys, List.forall_mem_cons, List.forall_mem_cons]
      refine ⟨isName_space, ⟨by decide, by decide⟩, fun kv hkv => ?_⟩
      rw [sampleProperties_kv] at hkv
      obtain ⟨i, _, rfl⟩ := List.mem_map.1 hkv
      exact isName_decimalText ⟨by decide, by decide⟩ i
    exact fun e he => hnames e.1 (List.mem_map_of_mem he)
  case isLine =>
    intro e he
    obtain ⟨c, hc, htext⟩ := mem_sampleEntries he
    rw [htext]
    exact (letterText_reads (M := fun _ => none) hc).line.mono fun name hname => nomatch hname

theorem given_sampleRules (names : List Text) {additional : Option Text}
    (hadditional : ∀ kv ∈ additional, kv = additionalName) :
    Given (sampleRules names) (sampleProperties names) additional := by
  have hlist (kv : Text) (hkv : kv ∈ additional.toList) : kv = additionalName :=
    hadditional kv (Option.mem_toList.1 hkv)
  constructor
  case table => exact table_sampleRules names
  case space => exact List.mem_cons_self
  case distinct =>
    refine List.nodup_append.2 ⟨nodup_kv names, ?_, fun kv hkv kv' hkv' heq => ?_⟩
    · cases additional <;> simp
    · exact (ne_of_mem_kv hkv).2 (heq.trans (hlist kv' hkv'))
  case known =>
    intro kv hkv
    have hkeys : (sampleRules names).keys =
        spaceName :: additionalName :: (sampleProperties names).map Prod.snd :=
      sampleEntries_keys names
    rw [hkeys]
    rcases List.mem_append.1 hkv with hkv | hkv
    · exact List.mem_cons_of_mem _ (List.mem_cons_of_mem _ hkv)
    · rw [hlist kv hkv]
      exact List.mem_cons_of_mem _ List.mem_cons_self

section Sample
variable {names required : List Text} {name : Text} {additional : Option Text}

/-- The sample after the rule of its object was added. -/
def sampleFinal (names required : List Text) (name : Text) (additional : Option Text) : RuleMap :=
  (objectRule (sampleRules names) (sampleProperties names) required name (ruleNameOf name)
    additional).1

theorem kept_objectRule (rules : RuleMap) (properties : List (Text × Text))
    (required : List Text) (name ruleName : Text) (additional : Option Text) :
    Kept rules (objectRule rules properties required name ruleName additional).1 :=
  (kept_firstRefs _ _ rules _).trans (addRule_spec _ _ _).2

theorem table_sampleFinal (required : List Text) (name : Text) (hnodup : names.Nodup)
    (hadditional : ∀ kv ∈ additional, kv = additionalName) :
    Table (sampleFinal names required name additional).entries :=
  (given_sampleRules names hadditional).table_objectRule
    ((sampleProperties_names names).symm ▸ hnodup) required name

/-- The words of the rules that were there. -/
theorem language_sampleFinal (required : List Text) (name : Text) (hnodup : names.Nodup)
    (hadditional : ∀ kv ∈ additional, kv = additionalName)
    (he : (key, letterText c) ∈ sampleEntries names) :
    languageOf (sampleFinal names required name additional) key = {[c]} := by
  obtain ⟨c', hc, htext⟩ := mem_sampleEntries he
  obtain rfl : c = c' := (List.cons.inj (List.cons.inj htext).2).1
  have hfind := kept_objectRule (sampleRules names) (sampleProperties names) required name
    (ruleNameOf name) additional _ _ (Hashmap.find_eq_some.2 he)
  exact (table_sampleFinal required name hnodup hadditional).language (Hashmap.find_eq_some.1 hfind)
    (fun name' l hl => (Option.some.inj hl).symm) (letterText_reads hc)

theorem mem_objectWords {W : Text → Language Nat} (hspace : W spaceName = {[c]})
    (P : Language Nat) (w : List Nat) :
    [byte '\x7b'] ++ ([c] ++ (w ++ ([byte '\x7d'] ++ [c]))) ∈ objectWords W P ↔ w ∈ P := by
  rw [objectWords, hspace]
  constructor
  · rintro ⟨_, rfl, _, ⟨_, rfl, _, ⟨u, hu, _, ⟨_, rfl, _, rfl, rfl⟩, rfl⟩, rfl⟩, heq⟩
    have hw := List.append_cancel_right (List.append_cancel_left (List.append_cancel_left heq))
    exact hw ▸ hu
  · exact fun hw => ⟨_, rfl, _, ⟨_, rfl, _, ⟨w, hw, _, ⟨_, rfl, _, rfl, rfl⟩, rfl⟩, rfl⟩, rfl⟩

/-- If the rule is right, the choices in it are those that are meant. -/
theorem ObjectRight.sample (additional : Option Text)
    (h : ObjectRight names required name additional.isSome)
    (hnodup : names.Nodup) (hadditional : ∀ kv ∈ additional, kv = additionalName) (w : List Nat) :
    w ∈ chosen (commaWords (languageOf (sampleFinal names required name additional)))
        (languageOf (sampleFinal names required name additional))
        ((requiredOf (sampleProperties names) required).map
          (kvOf (kvRuleNamesOf (sampleProperties names) additional)))
        (marked (kvRuleNamesOf (sampleProperties names) additional)
          (optionalOf (sampleProperties names) required additional)) ↔
      w ∈ pairWords (sampleFinal names required name additional) (sampleProperties names) required
        additional := by
  have hnames := sampleProperties_names names
  have hgiven := given_sampleRules names hadditional
  have hfinal := table_sampleFinal required name hnodup hadditional
  have hmeant := h _ _ _ additional hnames rfl hgiven hfinal (.refl _)
  rw [language_objectRule hgiven (hnames.symm ▸ hnodup) hfinal (.refl _)] at hmeant
  have hspace := language_sampleFinal required name hnodup hadditional
    (List.mem_cons_self : (spaceName, _) ∈ sampleEntries names)
  rw [← mem_objectWords hspace, hmeant, mem_objectWords hspace]

/-- The words of the sample: one letter for each pair, two for what is between them. -/
theorem sample_letters (required : List Text) (name : Text) (hnodup : names.Nodup)
    (hadditional : ∀ kv ∈ additional, kv = additionalName) :
    commaWords (languageOf (sampleFinal names required name additional)) =
        {[byte ',', byte 's']} ∧
      (∀ k i, (k, i) ∈ names.zipIdx →
        languageOf (sampleFinal names required name additional) (kvName i) =
          {[if k = starName then byte 'b' else byte 'a']}) ∧
      languageOf (sampleFinal names required name additional) additionalName = {[byte 'c']} := by
  refine ⟨?_, fun k i hki => ?_, ?_⟩
  · have hspace := language_sampleFinal required name hnodup hadditional
      (List.mem_cons_self : (spaceName, _) ∈ sampleEntries names)
    rw [commaWords, hspace]
    ext w
    constructor
    · rintro ⟨_, rfl, _, rfl, rfl⟩
      rfl
    · rintro rfl
      exact ⟨_, rfl, _, rfl, rfl⟩
  · refine language_sampleFinal required name hnodup hadditional ?_
    exact List.mem_cons_of_mem _ (List.mem_cons_of_mem _ (List.mem_map.2 ⟨(k, i), hki, rfl⟩))
  · exact language_sampleFinal required name hnodup hadditional
      (List.mem_cons_of_mem _ List.mem_cons_self)

theorem mem_sampleProperties {p : Text × Text} :
    p ∈ sampleProperties names ↔ ∃ i, (p.1, i) ∈ names.zipIdx ∧ p.2 = kvName i := by
  rw [sampleProperties, List.mem_map]
  constructor
  · rintro ⟨⟨k, i⟩, hki, rfl⟩
    exact ⟨i, hki, rfl⟩
  · rintro ⟨i, hki, hp⟩
    exact ⟨(p.1, i), hki, Prod.ext rfl hp.symm⟩

/-- A star among the properties that may be left out comes more than once. -/
theorem not_objectRight_of_optional (hnodup : names.Nodup) (hstar : starName ∈ names)
    (hreq : starName ∉ required) : ¬ ObjectRight names required name false := by
  intro h
  have hnone : ∀ kv ∈ (none : Option Text), kv = additionalName := fun kv hkv => nomatch hkv
  obtain ⟨hcomma, hkv, _⟩ := sample_letters required name hnodup hnone
  have hsame := ObjectRight.sample none h hnodup hnone
  generalize sampleFinal names required name none = final at *
  have hnames := sampleProperties_names names
  have hproperty {p : Text × Text} (hp : p ∈ sampleProperties names) :
      ∃ c, languageOf final p.2 = {[c]} := by
    obtain ⟨i, hki, heq⟩ := mem_sampleProperties.1 hp
    exact ⟨_, heq ▸ hkv _ i hki⟩
  have hchosen {k : Text} (hk : k ∈ names) :
      ∃ c, languageOf final (kvOf (kvRuleNamesOf (sampleProperties names) none) k) = {[c]} := by
    rw [← hnames] at hk
    obtain ⟨p, hp, rfl⟩ := List.mem_map.1 hk
    rw [kvOf_property (hnames.symm ▸ hnodup) hp (.inl rfl)]
    exact hproperty hp
  have hlen {l : Language Nat} (hl : ∃ c, l = {[c]}) : ∀ u ∈ l, u.length = 1 := by
    obtain ⟨c, rfl⟩ := hl
    rintro _ rfl
    rfl
  have hseplen : ∀ u ∈ commaWords (languageOf final), u.length = 2 := by
    rw [hcomma]
    rintro _ rfl
    rfl
  -- more stars than there are properties
  have hmark : (kvOf (kvRuleNamesOf (sampleProperties names) none) starName, true) ∈
      marked (kvRuleNamesOf (sampleProperties names) none)
        (optionalOf (sampleProperties names) required none) := by
    refine List.mem_map.2 ⟨starName, List.mem_append_left _ (List.mem_filter.2 ⟨?_, ?_⟩), rfl⟩
    · rwa [hnames]
    · exact decide_eq_true hreq
  have hitems : ∀ l ∈ ((requiredOf (sampleProperties names) required).map
      (kvOf (kvRuleNamesOf (sampleProperties names) none)) ++
        List.replicate (names.length + 1)
          (kvOf (kvRuleNamesOf (sampleProperties names) none) starName)).map (languageOf final),
      ∃ c, l = {[c]} := by
    intro l hl
    obtain ⟨kv, hkv, rfl⟩ := List.mem_map.1 hl
    rcases List.mem_append.1 hkv with hkv | hkv
    · obtain ⟨k, hk, rfl⟩ := List.mem_map.1 hkv
      exact hchosen (hnames ▸ mem_requiredOf hk)
    · exact List.eq_of_mem_replicate hkv ▸ hchosen hstar
  have hsep : ∃ u, u ∈ commaWords (languageOf final) :=
    ⟨[byte ',', byte 's'], by rw [hcomma]; rfl⟩
  obtain ⟨w, hw⟩ := exists_mem_joined hsep fun l hl => by
    obtain ⟨c, rfl⟩ := hitems l hl
    exact ⟨[c], rfl⟩
  obtain ⟨ys, n, hys, hn, hw'⟩ := (hsame w).1 ⟨_, selects_replicate hmark _, hw⟩
  obtain rfl := hn rfl
  have hmeant := length_of_mem_joined hseplen (m := 1) (fun l hl => hlen ?_) hw'
  case refine_1 =>
    rw [List.replicate_zero, List.append_nil, List.map_map] at hl
    obtain ⟨p, hp, rfl⟩ := List.mem_map.1 hl
    refine hproperty ?_
    rcases List.mem_append.1 hp with hp | hp
    · exact (List.mem_filter.1 hp).1
    · exact (List.mem_filter.1 (hys.subset hp)).1
  have hmade := length_of_mem_joined hseplen (m := 1) (fun l hl => hlen (hitems l hl)) hw
  have hle : (requiredPairs (sampleProperties names) required).length + ys.length ≤
      names.length := by
    have hsub := hys.length_le
    have hsplit := List.length_eq_length_filter_add (l := sampleProperties names)
      fun p => decide (p.1 ∈ required)
    have hcount : (sampleProperties names).length = names.length := by
      rw [← hnames, List.length_map]
      simp [hnames]
    have hoptional : optionalPairs (sampleProperties names) required =
        (sampleProperties names).filter fun p => !decide (p.1 ∈ required) :=
      List.filter_congr fun p _ => by simp
    rw [hoptional] at hsub
    rw [requiredPairs]
    omega
  simp only [List.length_map, List.length_append, List.length_replicate] at hmeant hmade
  omega

/-- A star that is a property is not told from the additional ones. -/
theorem not_objectRight_of_allowed (hnodup : names.Nodup) (hstar : starName ∈ names) :
    ¬ ObjectRight names required name true := by
  intro h
  have hadditional : ∀ kv ∈ some additionalName, kv = additionalName := fun kv hkv =>
    (Option.some.inj hkv).symm
  obtain ⟨hcomma, hkv, hadd⟩ :=
    sample_letters required name hnodup hadditional
  have hsame := ObjectRight.sample (some additionalName) h hnodup hadditional
  generalize sampleFinal names required name (some additionalName) = final at *
  have hnames := sampleProperties_names names
  -- the words that are meant and have the letter of the star
  obtain ⟨p, hp, hpstar⟩ := List.mem_map.1 (hnames.symm ▸ hstar :
    starName ∈ (sampleProperties names).map Prod.fst)
  obtain ⟨i, hpi, hpkv⟩ := mem_sampleProperties.1 hp
  have hletter : languageOf final p.2 = {[byte 'b']} := by
    rw [hpkv, hkv _ i hpi, if_pos hpstar]
  let ys := (optionalPairs (sampleProperties names) required).filter (·.1 = starName)
  have hmem : p ∈ requiredPairs (sampleProperties names) required ++ ys := by
    by_cases hreq : p.1 ∈ required
    · exact List.mem_append_left _ (List.mem_filter.2 ⟨hp, decide_eq_true hreq⟩)
    · refine List.mem_append_right _ (List.mem_filter.2 ⟨?_, decide_eq_true hpstar⟩)
      exact List.mem_filter.2 ⟨hp, decide_eq_true hreq⟩
  have hsep : ∃ u, u ∈ commaWords (languageOf final) :=
    ⟨[byte ',', byte 's'], by rw [hcomma]; rfl⟩
  obtain ⟨w, hw⟩ : ∃ w, w ∈ joined (commaWords (languageOf final))
      (((requiredPairs (sampleProperties names) required ++ ys).map Prod.snd ++
        List.replicate 0 additionalName).map (languageOf final)) :=
    exists_mem_joined hsep fun l hl => by
      rw [List.replicate_zero, List.append_nil, List.map_map] at hl
      obtain ⟨q, hq, rfl⟩ := List.mem_map.1 hl
      have hq' : q ∈ sampleProperties names := by
        rcases List.mem_append.1 hq with hq | hq
        · exact (List.mem_filter.1 hq).1
        · exact (List.mem_filter.1 (List.mem_filter.1 hq).1).1
      obtain ⟨j, hqj, hqkv⟩ := mem_sampleProperties.1 hq'
      have hlanguage := (congrArg (languageOf final) hqkv).trans (hkv _ j hqj)
      exact ⟨_, show _ ∈ languageOf final q.2 by rw [hlanguage]; rfl⟩
  have hb : byte 'b' ∈ w := by
    refine mem_of_mem_joined (l := languageOf final p.2) ?_ ?_ hw
    · exact List.mem_map_of_mem (List.mem_append_left _ (List.mem_map_of_mem hmem))
    · rw [hletter]
      rintro _ rfl
      exact List.mem_cons_self
  obtain ⟨xs, hxs, hw'⟩ := (hsame w).2 ⟨ys, 0, List.filter_sublist, fun _ => rfl, hw⟩
  refine not_mem_of_mem_joined (x := byte 'b') ?_ ?_ hw' hb
  · rw [hcomma]
    rintro _ rfl
    decide
  -- no rule of the object is that of the star
  have hother {k : Text} (hk : k ∈ names ∨ k = starName) : ∀ u ∈ languageOf final
      (kvOf (kvRuleNamesOf (sampleProperties names) (some additionalName)) k), byte 'b' ∉ u := by
    by_cases hkstar : k = starName
    · rw [hkstar, kvOf_additional, hadd]
      rintro _ rfl
      decide
    · obtain ⟨q, hq, rfl⟩ := List.mem_map.1 (hnames.symm ▸ hk.resolve_right hkstar :
        k ∈ (sampleProperties names).map Prod.fst)
      obtain ⟨j, hqj, hqkv⟩ := mem_sampleProperties.1 hq
      rw [kvOf_property (hnames.symm ▸ hnodup) hq (.inr hkstar), hqkv, hkv _ j hqj, if_neg hkstar]
      rintro _ rfl
      decide
  intro l hl
  obtain ⟨kv, hkv', rfl⟩ := List.mem_map.1 hl
  rcases List.mem_append.1 hkv' with hkv' | hkv'
  · obtain ⟨k, hk, rfl⟩ := List.mem_map.1 hkv'
    exact hother (.inl (hnames ▸ mem_requiredOf hk))
  · obtain ⟨⟨_, b⟩, hmark, rfl⟩ := List.mem_map.1 (hxs.mem kv hkv')
    obtain ⟨k, hk, heq⟩ := List.mem_map.1 hmark
    cases heq
    exact hother ((mem_optionalOf hk).imp (fun hk => hnames ▸ hk) And.right)

end Sample

/-- The rules of objects and arrays are right exactly where a star is no property, or a required
one without additional ones. -/
theorem objectArray_iff {names : List Text} (hnodup : names.Nodup) (required : List Text)
    (name : Text) (allowed : Bool) : ObjectRight names required name allowed ∧ ArrayRight ↔
      (starName ∈ names → starName ∈ required ∧ allowed = false) := by
  constructor
  · rintro ⟨h, _⟩ hstar
    cases allowed with
    | true => exact absurd h (not_objectRight_of_allowed hnodup hstar)
    | false =>
      refine ⟨?_, rfl⟩
      by_contra hreq
      exact not_objectRight_of_optional hnodup hstar hreq h
  · exact fun h => ⟨objectRight_of_condition hnodup h, arrayRight⟩

theorem objectArray_keys : ObjectRight [ascii "a", ascii "b"] [ascii "a"] [] true ∧ ArrayRight :=
  (objectArray_iff (by decide) [ascii "a"] [] true).2 fun hstar => absurd hstar (by decide)

/-- One property, named by a star, that may be left out. -/
theorem object_star : ¬ (ObjectRight [starName] [] [] false ∧ ArrayRight) := fun h =>
  not_objectRight_of_optional (by decide) List.mem_cons_self List.not_mem_nil h.1

end ActQuant.Grammar
