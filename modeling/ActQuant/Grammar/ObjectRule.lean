import ActQuant.Grammar.RuleMap

namespace ActQuant.Grammar
open Lib ActQuant.Grammar.Parser

/-! The rule of an object, and the repetition of an array. -/

/-- The bytes of a text of the source. -/
def ascii (s : String) : Text := s.toList.map byte

def starName : Text := ascii "*"

/-- Names are compared byte by byte. -/
theorem lawfulBEq_text : LawfulBEq Text := inferInstance

/-! ### Objects -/

/-- A name behind that of the object. -/
def prefixed (name k : Text) : Text := name ++ ((if name = [] then [] else ascii "-") ++ k)

/-- `prop_kv_rule_names[k]`. -/
def kvOf (kvRuleNames : Hashmap Text Text) (k : Text) : Text := (kvRuleNames.find k).getD []

/-- `comma_ref`. -/
def commaRef (kvRuleName : Text) : Text := ascii "( \",\" space " ++ (kvRuleName ++ ascii " )")

/-- `get_recursive_refs`. -/
def getRecursiveRefs (kvRuleNames : Hashmap Text Text) (name : Text) :
    RuleMap → List Text → Bool → RuleMap × Text
  | rules, [], _ => (rules, [])
  | rules, k :: ks, firstIsOptional =>
    let kvRuleName := kvOf kvRuleNames k
    let res :=
      if firstIsOptional then commaRef kvRuleName ++ if k = starName then ascii "*" else ascii "?"
      else
        kvRuleName ++ if k = starName then ascii " " ++ (commaRef kvRuleName ++ ascii "*") else []
    if ks = [] then (rules, res)
    else
      let refs := getRecursiveRefs kvRuleNames name rules ks true
      let rest := addRule refs.1 (prefixed name k ++ ascii "-rest") refs.2
      (rest.1, res ++ (ascii " " ++ rest.2))

/-- The loop over the properties that may come first. -/
def firstRefs (kvRuleNames : Hashmap Text Text) (name : Text) :
    RuleMap → List Text → RuleMap × Text
  | rules, [] => (rules, [])
  | rules, k :: ks =>
    let refs := getRecursiveRefs kvRuleNames name rules (k :: ks) false
    if ks = [] then refs
    else
      let others := firstRefs kvRuleNames name refs.1 ks
      (others.1, refs.2 ++ (ascii " | " ++ others.2))

/-- The key-value rules of the properties that must be there. -/
def requiredRefs (kvRuleNames : Hashmap Text Text) : List Text → Text
  | [] => []
  | [k] => kvOf kvRuleNames k
  | k :: ks => kvOf kvRuleNames k ++ (ascii " \",\" space " ++ requiredRefs kvRuleNames ks)

/-- `_build_object_rule`, where the key-value rules are there already: each property comes with the
name of its own, and so do the additional ones where they are allowed. -/
def buildObjectRule (rules : RuleMap) (properties : List (Text × Text)) (required : List Text)
    (name : Text) (additionalProperties : Option Text) : RuleMap × Text :=
  let propNames := properties.map Prod.fst
  let requiredProps := propNames.filter (· ∈ required)
  let optionalProps := propNames.filter (· ∉ required) ++
    if additionalProperties.isSome then [starName] else []
  let propKv := properties.foldl (fun m p => m.insert p.1 p.2) Hashmap.empty
  let kvRuleNames := additionalProperties.elim propKv (propKv.insert starName)
  let refs := firstRefs kvRuleNames name rules optionalProps
  let optional :=
    if optionalProps = [] then []
    else if requiredProps = [] then ascii " (" ++ (refs.2 ++ ascii " )?")
    else ascii " ( \",\" space ( " ++ (refs.2 ++ ascii " ) )?")
  (refs.1, ascii "\"\x7b\" space " ++ (requiredRefs kvRuleNames requiredProps ++
    (optional ++ ascii " \"\x7d\" space")))

/-! ### What the texts are read as -/

theorem isItem_quoted (h : 0x20 ≤ c) (h' : c < 0x80) (hquote : c ≠ 34) (hback : c ≠ 92) :
    IsItem M [quote, c, quote] {[c]} :=
  isItem_literal (.cons (t := [c]) (readAs_ascii h' (by omega) hquote hback) .nil)
    (List.cons_ne_nil _ _)

theorem powers_optional (l : Language Nat) : powers l 0 (some 1) = 1 + l := by
  ext w
  rw [Language.mem_add]
  constructor
  · rintro ⟨k, ⟨_, hk⟩, hw⟩
    rcases Nat.le_one_iff_eq_zero_or_eq_one.1 (hk 1 rfl) with rfl | rfl
    · exact .inl (pow_zero l ▸ hw)
    · exact .inr (pow_one l ▸ hw)
  · rintro (hw | hw)
    · exact ⟨0, ⟨Nat.le_refl 0, fun b hb => Nat.zero_le b⟩, (pow_zero l).symm ▸ hw⟩
    · exact ⟨1, ⟨Nat.zero_le 1, fun b hb => (Option.some.inj hb).le⟩, (pow_one l).symm ▸ hw⟩

theorem powers_star (l : Language Nat) : powers l 0 none = KStar.kstar l := by
  ext w
  rw [mem_kstar_iff_pow]
  exact exists_congr fun k => and_iff_right ⟨Nat.zero_le k, fun b hb => nomatch hb⟩

theorem Parser.IsItem.optional (h : IsItem M t l) : IsItem M (t ++ [byte '?']) (1 + l) := by
  rw [← powers_optional]
  exact h.operate isOperator_optional (fun b _ => Nat.zero_le b) (by decide)

theorem Parser.IsItem.star (h : IsItem M t l) : IsItem M (t ++ [byte '*']) (KStar.kstar l) := by
  rw [← powers_star]
  exact h.operate isOperator_star (fun b hb => nomatch hb) (by decide)

def spaceName : Text := ascii "space"

theorem isName_space : IsName spaceName := ⟨by decide, by decide⟩

/-- A comma and the space behind it. -/
def commaWords (W : Text → Language Nat) : Language Nat :=
  ({[byte ',']} : Language Nat) * W spaceName

/-- An object around its pairs. -/
def objectWords (W : Text → Language Nat) (pairs : Language Nat) : Language Nat :=
  {[byte '\x7b']} * (W spaceName * (pairs * ({[byte '\x7d']} * W spaceName)))

/-- The words of one property, with or without those before it. -/
def leadWords (W : Text → Language Nat) (firstIsOptional : Bool) (kv : Text) (again : Bool) :
    Language Nat :=
  if firstIsOptional then
    if again then KStar.kstar (commaWords W * W kv)
    else 1 + commaWords W * W kv
  else W kv * if again then KStar.kstar (commaWords W * W kv) else 1

section Refs
variable {M : Meaning} {W : Text → Language Nat} (hspace : IsItem M spaceName (W spaceName))
  {kvRuleNames : Hashmap Text Text} {name : Text}
include hspace

theorem isSequence_comma (h : IsSequence M t l) :
    IsSequence M (ascii "\",\" space " ++ t) (commaWords W * l) := by
  rw [commaWords, mul_assoc]
  exact .cons (isItem_quoted (c := byte ',') (by decide) (by decide) (by decide) (by decide))
    (.cons hspace h)

theorem isItem_commaRef (h : IsItem M kv (W kv)) :
    IsItem M (commaRef kv) (commaWords W * W kv) := by
  have hgroup := (isSequence_comma hspace h.sequence).alternates.group 1 1
  have htext : commaRef kv = groupText 1 (ascii "\",\" space " ++ kv) 1 := by
    simp [commaRef, groupText, ascii]
  rw [htext]
  exact hgroup

theorem isSequence_lead {k : Text}
    (hkv : IsItem M (kvOf kvRuleNames k) (W (kvOf kvRuleNames k))) (b : Bool) :
    IsSequence M
      (if b then commaRef (kvOf kvRuleNames k) ++ if k = starName then ascii "*" else ascii "?"
      else kvOf kvRuleNames k ++
        if k = starName then ascii " " ++ (commaRef (kvOf kvRuleNames k) ++ ascii "*") else [])
      (leadWords W b (kvOf kvRuleNames k) (decide (k = starName))) := by
  have hcomma := isItem_commaRef hspace hkv
  by_cases hk : k = starName
  · rw [if_pos hk, if_pos hk, decide_eq_true hk]
    cases b with
    | true => exact hcomma.star.sequence
    | false => exact .cons hkv hcomma.star.sequence
  · rw [if_neg hk, if_neg hk, decide_eq_false hk]
    cases b with
    | true => exact hcomma.optional.sequence
    | false =>
      rw [if_neg Bool.false_ne_true, List.append_nil, leadWords, if_neg Bool.false_ne_true,
        if_neg Bool.false_ne_true, mul_one]
      exact hkv.sequence

theorem requiredRefs_reads {ks : List Text} (hne : ks ≠ [])
    (hnames : ∀ k ∈ ks, IsItem M (kvOf kvRuleNames k) (W (kvOf kvRuleNames k))) :
    IsSequence M (requiredRefs kvRuleNames ks)
      (joined (commaWords W) ((ks.map (kvOf kvRuleNames)).map W)) := by
  induction ks with
  | nil => exact absurd rfl hne
  | cons k ks ih =>
    have hkv := hnames k List.mem_cons_self
    cases ks with
    | nil =>
      rw [List.map_singleton, List.map_singleton, joined_singleton]
      exact hkv.sequence
    | cons k' ks =>
      have hrest := isSequence_comma hspace
        (ih (List.cons_ne_nil _ _) fun k'' hk'' => hnames k'' (List.mem_cons_of_mem _ hk''))
      have hne' : ((k' :: ks).map (kvOf kvRuleNames)).map W ≠ [] := List.cons_ne_nil _ _
      rw [sep_mul_joined _ hne'] at hrest
      exact .cons hkv hrest

/-- The rule around the alternatives of the properties that may be left out. -/
theorem objectText_reads {req opt : List Text} {refs : Text}
    (hreq : ∀ k ∈ req, IsItem M (kvOf kvRuleNames k) (W (kvOf kvRuleNames k)))
    (hopt : opt = [] ∧ l = 0 ∨ opt ≠ [] ∧ IsAlternates M refs l) :
    IsSequence M (ascii "\"\x7b\" space " ++ (requiredRefs kvRuleNames req ++
      ((if opt = [] then []
        else if req = [] then ascii " (" ++ (refs ++ ascii " )?")
        else ascii " ( \",\" space ( " ++ (refs ++ ascii " ) )?")) ++ ascii " \"\x7d\" space")))
      (objectWords W (if req = [] then 1 + l
        else joined (commaWords W) ((req.map (kvOf kvRuleNames)).map W) *
          (1 + commaWords W * l))) := by
  have hclose := IsSequence.cons (M := M)
    (isItem_quoted (c := byte '\x7d') (by decide) (by decide) (by decide) (by decide))
    hspace.sequence
  have hopen {t : Text} {l : Language Nat} (n : Nat) (h : IsSequence M t l) :=
    IsSequence.cons (M := M)
      (isItem_quoted (c := byte '\x7b') (by decide) (by decide) (by decide) (by decide))
      (hspace.sequence.append h n)
  rw [objectWords]
  rcases hopt with ⟨rfl, rfl⟩ | ⟨hne, hrefs⟩
  · rw [if_pos rfl, add_zero, mul_zero, add_zero, mul_one]
    by_cases hnil : req = []
    · subst hnil
      rw [if_pos rfl, one_mul]
      exact hopen 1 hclose
    · rw [if_neg hnil]
      exact hopen 0 ((requiredRefs_reads hspace hnil hreq).append hclose 0)
  · rw [if_neg hne]
    by_cases hnil : req = []
    · subst hnil
      have hall := hopen 1 ((hrefs.group 0 1).optional.sequence.append hclose 0)
      rw [if_pos rfl, if_pos rfl]
      simpa [ascii, groupText, requiredRefs, spaceName, quote, byte] using hall
    · have hgroup := ((isSequence_comma hspace (hrefs.group 1 1).sequence).alternates.group 1
        1).optional.sequence
      have hall := hopen 0 ((requiredRefs_reads hspace hnil hreq).append (hgroup.append hclose 0) 0)
      rw [if_neg hnil, if_neg hnil, mul_assoc]
      simpa [ascii, groupText, spaceName, quote, byte] using hall

end Refs

section Rests
variable {kvRuleNames : Hashmap Text Text} {name : Text} {final : RuleMap}

/-- The key-value rules of properties, where that of the additional ones may come again. -/
def marked (kvRuleNames : Hashmap Text Text) (ks : List Text) : List (Text × Bool) :=
  ks.map fun k => (kvOf kvRuleNames k, decide (k = starName))

theorem kept_getRecursiveRefs (kvRuleNames : Hashmap Text Text) (name : Text) (rules : RuleMap)
    (ks : List Text) (b : Bool) :
    Kept rules (getRecursiveRefs kvRuleNames name rules ks b).1 := by
  induction ks generalizing rules b with
  | nil => exact .refl rules
  | cons k ks ih =>
    rw [getRecursiveRefs]
    dsimp only
    split
    case isTrue => exact .refl rules
    case isFalse => exact (ih rules true).trans (addRule_spec _ _ _).2

theorem kept_firstRefs (kvRuleNames : Hashmap Text Text) (name : Text) (rules : RuleMap)
    (ks : List Text) :
    Kept rules (firstRefs kvRuleNames name rules ks).1 := by
  induction ks generalizing rules with
  | nil => exact .refl rules
  | cons k ks ih =>
    rw [firstRefs]
    dsimp only
    split
    case isTrue => exact kept_getRecursiveRefs _ _ rules _ false
    case isFalse => exact (kept_getRecursiveRefs _ _ rules _ false).trans (ih _)

theorem prefixed_rest_ne_nil (name k : Text) : prefixed name k ++ ascii "-rest" ≠ [] :=
  List.append_ne_nil_of_right_ne_nil _ (by decide)

/-- What one property and then the others are read as. -/
theorem getRecursiveRefs_reads (hfinal : Table final.entries) (rules : RuleMap) {k : Text}
    {ks : List Text} (hnames : ∀ k' ∈ k :: ks, IsName (kvOf kvRuleNames k')) (b : Bool)
    (hkept : Kept (getRecursiveRefs kvRuleNames name rules (k :: ks) b).1 final) :
    IsSequence (meaning final) (getRecursiveRefs kvRuleNames name rules (k :: ks) b).2
      (leadWords (languageOf final) b (kvOf kvRuleNames k) (decide (k = starName)) *
        rests (commaWords (languageOf final)) (languageOf final) (marked kvRuleNames ks)) := by
  have hspace := isItem_rule final isName_space
  induction ks generalizing k rules b with
  | nil =>
    have hlead := isSequence_lead hspace (isItem_rule final (hnames k List.mem_cons_self)) b
    rw [marked, List.map_nil, rests, mul_one]
    exact hlead
  | cons k' ks ih =>
    have hlead := isSequence_lead hspace (isItem_rule final (hnames k List.mem_cons_self)) b
    rw [getRecursiveRefs] at hkept ⊢
    dsimp only at hkept ⊢
    rw [if_neg (List.cons_ne_nil _ _)] at hkept ⊢
    have hrest := ih rules (fun k'' hk'' => hnames k'' (List.mem_cons_of_mem _ hk'')) true
      ((addRule_spec _ _ _).2.trans hkept)
    have hlanguage := language_addRule hfinal hkept hrest.alternates
    generalize hadd : addRule (getRecursiveRefs kvRuleNames name rules (k' :: ks) true).1
      (prefixed name k ++ ascii "-rest")
      (getRecursiveRefs kvRuleNames name rules (k' :: ks) true).2 = added at hlanguage
    have hname : IsName added.2 := hadd ▸ isName_addRule (prefixed_rest_ne_nil name k)
    have hboth := hlead.append (isItem_rule final hname).sequence 0
    rw [hlanguage] at hboth
    exact hboth

/-- The alternatives, one for each property that may come first. -/
theorem firstRefs_reads (hfinal : Table final.entries) (rules : RuleMap) {ks : List Text}
    (hne : ks ≠ []) (hnames : ∀ k ∈ ks, IsName (kvOf kvRuleNames k))
    (hkept : Kept (firstRefs kvRuleNames name rules ks).1 final) :
    IsAlternates (meaning final) (firstRefs kvRuleNames name rules ks).2
      (firsts (commaWords (languageOf final)) (languageOf final) (marked kvRuleNames ks)) := by
  induction ks generalizing rules with
  | nil => exact absurd rfl hne
  | cons k ks ih =>
    have hfirst (rest : Language Nat) : languageOf final (kvOf kvRuleNames k) *
        ((if decide (k = starName) then
          KStar.kstar (commaWords (languageOf final) * languageOf final (kvOf kvRuleNames k))
          else 1) * rest) =
        leadWords (languageOf final) false (kvOf kvRuleNames k) (decide (k = starName)) * rest := by
      rw [leadWords, if_neg Bool.false_ne_true, mul_assoc]
    rw [firstRefs] at hkept ⊢
    dsimp only at hkept ⊢
    rw [marked, List.map_cons, firsts, hfirst]
    by_cases hks : ks = []
    · subst hks
      rw [if_pos rfl] at hkept ⊢
      rw [List.map_nil, firsts, add_zero]
      exact (getRecursiveRefs_reads hfinal rules hnames false hkept).alternates
    · rw [if_neg hks] at hkept ⊢
      have hothers := ih _ hks (fun k' hk' => hnames k' (List.mem_cons_of_mem _ hk')) hkept
      have hkept' := (kept_firstRefs _ _ _ ks).trans hkept
      exact .bar (getRecursiveRefs_reads hfinal rules hnames false hkept') hothers

variable {properties : List (Text × Text)} {required : List Text} {additional : Option Text}

/-- `prop_kv_rule_names` when the rule is built. -/
def kvRuleNamesOf (properties : List (Text × Text)) (additional : Option Text) :
    Hashmap Text Text :=
  let propKv := properties.foldl (fun m p => m.insert p.1 p.2) Hashmap.empty
  additional.elim propKv (propKv.insert starName)

def requiredOf (properties : List (Text × Text)) (required : List Text) : List Text :=
  (properties.map Prod.fst).filter (· ∈ required)

def optionalOf (properties : List (Text × Text)) (required : List Text)
    (additional : Option Text) : List Text :=
  (properties.map Prod.fst).filter (· ∉ required) ++
    if additional.isSome then [starName] else []

/-- The rule as it is written: the required properties, and then some of the others. -/
theorem buildObjectRule_reads (hfinal : Table final.entries) (rules : RuleMap)
    (hrequired : ∀ k ∈ requiredOf properties required,
      IsName (kvOf (kvRuleNamesOf properties additional) k))
    (hoptional : ∀ k ∈ optionalOf properties required additional,
      IsName (kvOf (kvRuleNamesOf properties additional) k))
    (hkept : Kept (buildObjectRule rules properties required name additional).1 final) :
    IsSequence (meaning final) (buildObjectRule rules properties required name additional).2
      (objectWords (languageOf final) (chosen (commaWords (languageOf final)) (languageOf final)
        ((requiredOf properties required).map (kvOf (kvRuleNamesOf properties additional)))
        (marked (kvRuleNamesOf properties additional)
          (optionalOf properties required additional)))) := by
  have hspace := isItem_rule final isName_space
  have hopt : optionalOf properties required additional = [] ∧
        firsts (commaWords (languageOf final)) (languageOf final)
          (marked (kvRuleNamesOf properties additional)
            (optionalOf properties required additional)) = 0 ∨
      optionalOf properties required additional ≠ [] ∧ IsAlternates (meaning final)
        (firstRefs (kvRuleNamesOf properties additional) name rules
          (optionalOf properties required additional)).2
        (firsts (commaWords (languageOf final)) (languageOf final)
          (marked (kvRuleNamesOf properties additional)
            (optionalOf properties required additional))) := by
    by_cases hnil : optionalOf properties required additional = []
    · rw [hnil]
      exact .inl ⟨rfl, rfl⟩
    · exact .inr ⟨hnil, firstRefs_reads hfinal rules hnil hoptional hkept⟩
  have htext := objectText_reads hspace (fun k hk => isItem_rule final (hrequired k hk)) hopt
  refine cast (congrArg _ (congrArg _ ?_)) htext
  by_cases hreq : requiredOf properties required = []
  · rw [if_pos hreq, hreq, List.map_nil, chosen_nil]
  · rw [if_neg hreq, chosen_of_ne (List.map_eq_nil_iff.not.2 hreq)]

/-! ### Objects as they are meant -/

def requiredPairs (properties : List (Text × Text)) (required : List Text) :
    List (Text × Text) := properties.filter (·.1 ∈ required)

def optionalPairs (properties : List (Text × Text)) (required : List Text) :
    List (Text × Text) := properties.filter (·.1 ∉ required)

/-- All the required pairs in their order, some of the others in theirs, and any number of
additional ones where they are allowed. -/
def pairWords (final : RuleMap) (properties : List (Text × Text)) (required : List Text)
    (additional : Option Text) : Language Nat :=
  {w | ∃ ys n, ys.Sublist (optionalPairs properties required) ∧ (additional = none → n = 0) ∧
    w ∈ joined (commaWords (languageOf final))
      (((requiredPairs properties required ++ ys).map Prod.snd ++
        List.replicate n (additional.getD [])).map (languageOf final))}

/-- The rule of an object as `visit` adds it. -/
def objectRule (rules : RuleMap) (properties : List (Text × Text)) (required : List Text)
    (name ruleName : Text) (additional : Option Text) : RuleMap × Text :=
  let built := buildObjectRule rules properties required name additional
  addRule built.1 ruleName built.2

theorem find_foldl_insert {m : Hashmap Text Text} (hnodup : (properties.map Prod.fst).Nodup)
    {p : Text × Text} (hp : p ∈ properties) :
    (properties.foldl (fun m p => m.insert p.1 p.2) m).find p.1 = some p.2 := by
  induction properties using List.reverseRecOn with
  | nil => exact absurd hp List.not_mem_nil
  | append_singleton properties q ih =>
    rw [List.foldl_append, List.foldl_cons, List.foldl_nil, Hashmap.find_insert]
    rw [List.map_append, List.nodup_append] at hnodup
    obtain ⟨hinit, _, hapart⟩ := hnodup
    rcases List.mem_append.1 hp with hp | hp
    · have hne : p.1 ≠ q.1 :=
        hapart p.1 (List.mem_map_of_mem hp) q.1 (List.mem_map_of_mem List.mem_cons_self)
      rw [if_neg hne]
      exact ih hinit hp
    · rw [List.mem_singleton.1 hp, if_pos rfl]

theorem kvOf_property (hnodup : (properties.map Prod.fst).Nodup) {p : Text × Text}
    (hp : p ∈ properties) (hstar : additional = none ∨ p.1 ≠ starName) :
    kvOf (kvRuleNamesOf properties additional) p.1 = p.2 := by
  have hfind := find_foldl_insert (m := Hashmap.empty) hnodup hp
  cases additional with
  | none => exact congrArg (Option.getD · []) hfind
  | some kv =>
    have hne : p.1 ≠ starName := hstar.resolve_left (Option.some_ne_none kv)
    rw [kvOf, kvRuleNamesOf]
    dsimp only [Option.elim_some]
    rw [Hashmap.find_insert, if_neg hne, hfind]
    rfl

theorem kvOf_additional (properties : List (Text × Text)) (kv : Text) :
    kvOf (kvRuleNamesOf properties (some kv)) starName = kv := by
  rw [kvOf, kvRuleNamesOf]
  dsimp only [Option.elim_some]
  rw [Hashmap.find_insert, if_pos rfl]
  rfl

theorem requiredOf_eq (properties : List (Text × Text)) (required : List Text) :
    requiredOf properties required = (requiredPairs properties required).map Prod.fst :=
  List.filter_map

theorem map_kvOf (additional : Option Text) {pairs : List (Text × Text)} (hnodup : (properties.map Prod.fst).Nodup)
    (hsub : pairs ⊆ properties)
    (hstar : additional = none ∨ ∀ p ∈ pairs, p.1 ≠ starName) :
    (pairs.map Prod.fst).map (kvOf (kvRuleNamesOf properties additional)) =
      pairs.map Prod.snd := by
  rw [List.map_map]
  exact List.map_congr_left fun p hp =>
    kvOf_property hnodup (hsub hp) (hstar.imp_right fun h => h p hp)

/-- Where no property has the name of the additional ones, the choices are the ones meant. -/
theorem chosen_eq_pairWords (final : RuleMap) (hnodup : (properties.map Prod.fst).Nodup)
    (hstar : starName ∈ properties.map Prod.fst → starName ∈ required ∧ additional = none) :
    chosen (commaWords (languageOf final)) (languageOf final)
      ((requiredOf properties required).map (kvOf (kvRuleNamesOf properties additional)))
      (marked (kvRuleNamesOf properties additional) (optionalOf properties required additional)) =
        pairWords final properties required additional := by
  have hother (pairs : List (Text × Text)) (hsub : pairs ⊆ properties) :
      additional = none ∨ ∀ p ∈ pairs, p.1 ≠ starName := by
    by_cases hadd : additional = none
    · exact .inl hadd
    · exact .inr fun p hp heq => hadd (hstar (heq ▸ List.mem_map_of_mem (hsub hp))).2
  have hreqsub : requiredPairs properties required ⊆ properties :=
    fun p hp => (List.mem_filter.1 hp).1
  have hoptsub : optionalPairs properties required ⊆ properties :=
    fun p hp => (List.mem_filter.1 hp).1
  have hreq := map_kvOf additional hnodup hreqsub (hother _ hreqsub)
  have hoptional : marked (kvRuleNamesOf properties additional)
      ((properties.map Prod.fst).filter (· ∉ required)) =
        ((optionalPairs properties required).map Prod.snd).map fun kv => (kv, false) := by
    have hfilter : (properties.map Prod.fst).filter (· ∉ required) =
        (optionalPairs properties required).map Prod.fst := List.filter_map
    rw [hfilter, marked, List.map_map, List.map_map]
    refine List.map_congr_left fun p hp => ?_
    have hp' := hoptsub hp
    have hkv := kvOf_property hnodup hp' ((hother [p] (by simpa using hp')).imp_right
      fun h => h p List.mem_cons_self)
    have hne : p.1 ≠ starName := fun heq => by
      have hmem := (hstar (heq ▸ List.mem_map_of_mem hp')).1
      exact of_decide_eq_true (List.mem_filter.1 hp).2 (heq.symm ▸ hmem)
    exact Prod.ext hkv (decide_eq_false hne)
  have hselects (xs : List Text) : Selects (marked (kvRuleNamesOf properties additional)
      (optionalOf properties required additional)) xs ↔
        ∃ (ys : List (Text × Text)) (n : Nat), ys.Sublist (optionalPairs properties required) ∧
          (additional = none → n = 0) ∧
          xs = ys.map Prod.snd ++ List.replicate n (additional.getD []) := by
    cases additional with
    | none =>
      rw [optionalOf, Option.isSome_none, if_neg Bool.false_ne_true, List.append_nil, hoptional,
        selects_unmarked, List.sublist_map_iff]
      constructor
      · rintro ⟨ys, hys, rfl⟩
        exact ⟨ys, 0, hys, fun _ => rfl, (List.append_nil _).symm⟩
      · rintro ⟨ys, n, hys, hn, rfl⟩
        obtain rfl := hn rfl
        exact ⟨ys, hys, List.append_nil _⟩
    | some kv =>
      have hmark : marked (kvRuleNamesOf properties (some kv)) [starName] = [(kv, true)] := by
        rw [marked, List.map_singleton, kvOf_additional, decide_eq_true rfl]
      rw [optionalOf, Option.isSome_some, if_pos rfl, marked, List.map_append, ← marked, ← marked,
        hmark, hoptional, selects_concat]
      constructor
      · rintro ⟨xs, n, hxs, rfl⟩
        obtain ⟨ys, hys, rfl⟩ := List.sublist_map_iff.1 (selects_unmarked.1 hxs)
        exact ⟨ys, n, hys, fun h => absurd h (Option.some_ne_none kv), rfl⟩
      · rintro ⟨ys, n, hys, _, rfl⟩
        exact ⟨_, n, selects_unmarked.2 (hys.map _), rfl⟩
  ext w
  rw [requiredOf_eq, hreq]
  constructor
  · rintro ⟨xs, hxs, hw⟩
    obtain ⟨ys, n, hys, hn, rfl⟩ := (hselects xs).1 hxs
    refine ⟨ys, n, hys, hn, ?_⟩
    rwa [List.map_append (f := Prod.snd), List.append_assoc]
  · rintro ⟨ys, n, hys, hn, hw⟩
    refine ⟨_, (hselects _).2 ⟨ys, n, hys, hn, rfl⟩, ?_⟩
    rwa [List.map_append (f := Prod.snd), List.append_assoc] at hw

end Rests

end ActQuant.Grammar
