import ActQuant.Fisher.TfExample

namespace ActQuant.Fisher
open ActQuant.Lib

@[simp] theorem Parse.ok_bind (a : α) (f : α → Parse β) : (Parse.ok a >>= f) = f a := rfl

theorem and_80 (b : UInt8) : b.toNat &&& 0x80 = 0 ↔ b.toNat < 128 := by
  have hb := b.toNat_lt
  have hbit : b.toNat &&& 2 ^ 7 = (b.toNat.testBit 7).toNat * 2 ^ 7 := Nat.and_two_pow _ _
  rw [Nat.testBit_eq_decide_div_mod_eq] at hbit
  by_cases h : b.toNat < 128
  · rw [Nat.div_eq_of_lt h] at hbit
    exact iff_of_true hbit h
  · have hdiv : b.toNat / 2 ^ 7 % 2 = 1 := by omega
    rw [hdiv] at hbit
    exact iff_of_false (fun h0 => by simp [h0] at hbit) h

theorem and_7f (b : UInt8) : b.toNat &&& 0x7f = b.toNat % 128 :=
  Nat.and_two_pow_sub_one_eq_mod b.toNat 7

/-- Every encoding of a number is read to its end. -/
theorem vintFrom_varint (h : Varint n bs) (result shift : Nat) (rest : Bytes) :
    vintFrom result shift (bs ++ rest) = .ok (result ||| n <<< shift, rest) := by
  induction h generalizing result shift with
  | last h =>
    rw [List.singleton_append, vintFrom, if_pos ((and_80 _).2 h), and_7f, Nat.mod_eq_of_lt h]
  | @more n bs b h hv ih =>
    have hlow : b.toNat - 128 = b.toNat % 128 := by
      have hb := b.toNat_lt
      omega
    have hsum : b.toNat % 128 + 128 * n = b.toNat % 128 ||| n <<< 7 := by
      have hor := Nat.two_pow_add_eq_or_of_lt (i := 7) (Nat.mod_lt b.toNat (by decide)) n
      rw [Nat.add_comm, Nat.shiftLeft_eq, Nat.or_comm, Nat.mul_comm n]
      exact hor
    rw [List.cons_append, vintFrom, if_neg (fun h0 => absurd ((and_80 b).1 h0) (by omega)), ih,
      and_7f, hlow, hsum, Nat.shiftLeft_or_distrib, ← Nat.shiftLeft_add, Nat.or_assoc,
      Nat.add_comm 7]

theorem vint_varint (h : Varint n bs) (rest : Bytes) : vint (bs ++ rest) = .ok (n, rest) := by
  rw [vint, vintFrom_varint h, Nat.shiftLeft_zero, Nat.zero_or]

theorem skipVarint_varint (h : Varint n bs) (rest : Bytes) :
    skipVarint (bs ++ rest) = .ok rest := by
  induction h with
  | last h => rw [List.singleton_append, skipVarint, if_pos ((and_80 _).2 h)]
  | more h _ ih =>
    rw [List.cons_append, skipVarint, if_neg (fun h0 => absurd ((and_80 _).1 h0) (by omega)), ih]

theorem takeLen_encodes (h : (Content.len payload).Encodes bs) (rest : Bytes) :
    takeLen (bs ++ rest) = .ok (payload, rest) := by
  cases h with
  | len h =>
    rw [takeLen, List.append_assoc, vint_varint h, Parse.ok_bind]
    dsimp only
    rw [List.take_left, List.drop_left]

/-- Whatever a field holds is skipped by its wire type. -/
theorem skip_encodes {content : Content} (h : content.Encodes bs) (rest : Bytes) :
    skip (bs ++ rest) content.wireType = .ok rest := by
  cases h with
  | varint h => exact skipVarint_varint h rest
  | fixed64 h => exact congrArg Parse.ok (List.drop_left' h)
  | fixed32 h => exact congrArg Parse.ok (List.drop_left' h)
  | @len payload bs h =>
    rw [Content.wireType, skip, List.append_assoc, vint_varint h, Parse.ok_bind]
    exact congrArg Parse.ok List.drop_left

theorem tag_split (number : Nat) (content : Content) :
    (8 * number + content.wireType) >>> 3 = number ∧
      (8 * number + content.wireType) &&& 7 = content.wireType := by
  have hlt := content.wireType_lt
  constructor
  · rw [Nat.shiftRight_eq_div_pow]
    omega
  · rw [Nat.and_two_pow_sub_one_eq_mod _ 3]
    omega

/-- A loop whose body reacts to each field as it should reads a message so. -/
theorem eachField_encoded (body : σ → Nat → Nat → Bytes → Parse (Flow σ × Bytes))
    (react : σ → Field → Flow σ) (henc : Encoded fields data)
    (hbody : ∀ s, ∀ field ∈ fields, ∀ bs rest, field.content.Encodes bs →
      body s field.number field.content.wireType (bs ++ rest) = .ok (react s field, rest))
    (hturns : data.length ≤ turns) (s : σ) :
    eachField body turns s data = .ok (readFields react s fields) := by
  induction henc generalizing s turns with
  | nil => cases turns <;> rfl
  | @cons tag bs fields rest field htag hcontent hrest ih =>
    obtain ⟨b, tail, htail⟩ := List.exists_cons_of_ne_nil htag.ne_nil
    have hvint := vint_varint htag (bs ++ rest)
    have hfirst := hbody s field (.head _) bs rest hcontent
    obtain ⟨hnumber, hwt⟩ := tag_split field.number field.content
    cases turns with
    | zero =>
      rw [htail] at hturns
      cases hturns
    | succ turns =>
      have hlen : rest.length ≤ turns := by
        rw [htail] at hturns
        simp only [List.length_append, List.cons_append, List.length_cons] at hturns
        omega
      rw [htail, List.cons_append, eachField, ← List.cons_append, ← htail, hvint, Parse.ok_bind]
      dsimp only
      rw [hnumber, hwt, hfirst, Parse.ok_bind, readFields]
      cases react s field with
      | next s => exact ih (fun s f hf => hbody s f (.tail _ hf)) hlen s
      | leave s => rfl


/-- A feature of a tf.Example; singles by their bits, integers as they stand in a varint. -/
inductive FeatureValue where
  | bytes (values : List Bytes)
  | floats (values : List UInt32)
  | int64s (values : List UInt64)

def FeatureValue.number : FeatureValue → Nat
  | .bytes _ => 1
  | .floats _ => 2
  | .int64s _ => 3

/-- The singles a field of a `FloatList` adds, packed or not. -/
def fieldFloats (field : Field) : List UInt32 :=
  match field.content with
  | .len chunk => if field.number = 1 then float32s chunk else []
  | .fixed32 bits => if field.number = 1 then float32s bits else []
  | _ => []

/-- A single in a field of its own. -/
def Unpacked (field : Field) : Prop := field.number = 1 ∧ field.content.wireType = 5

inductive PackedVarints : List UInt64 → Bytes → Prop where
  | nil : PackedVarints [] []
  | cons (h : Varint v.toNat bs) (hrest : PackedVarints vs rest) :
      PackedVarints (v :: vs) (bs ++ rest)

/-- The integers that the fields of an `Int64List` add up to, packed or not. -/
inductive Int64Fields : List Field → List UInt64 → Prop where
  | nil : Int64Fields [] []
  | varint (h : Int64Fields fields vs) : Int64Fields (⟨1, .varint v.toNat⟩ :: fields) (v :: vs)
  | packed (hpacked : PackedVarints ws chunk) (h : Int64Fields fields vs) :
      Int64Fields (⟨1, .len chunk⟩ :: fields) (ws ++ vs)
  | other {field : Field}
      (hfield : ¬ (field.number = 1 ∧ (field.content.wireType = 0 ∨ field.content.wireType = 2)))
      (h : Int64Fields fields vs) : Int64Fields (field :: fields) vs

/-- The encodings of the list of a feature; whether singles may stand in fields of their own is
the first argument. -/
inductive ListEnc (unpacked : Bool) : FeatureValue → Bytes → Prop where
  | bytes (h : Encoded fields bs) : ListEnc unpacked (.bytes (payloads 1 fields)) bs
  | floats (h : Encoded fields bs) (hwhole : ∀ chunk ∈ payloads 1 fields, chunk.length % 4 = 0)
      (hpacked : unpacked = false → ∀ field ∈ fields, ¬ Unpacked field) :
      ListEnc unpacked (.floats (fields.flatMap fieldFloats)) bs
  | int64s (h : Encoded fields bs) (hvalues : Int64Fields fields values) :
      ListEnc unpacked (.int64s values) bs

/-- One of the three lists is there, once. -/
def FeatureEnc (unpacked : Bool) (v : FeatureValue) (bs : Bytes) : Prop :=
  ∃ fields list, Encoded fields bs ∧ ListEnc unpacked v list ∧ ∀ k, k = 1 ∨ k = 2 ∨ k = 3 →
    payloads k fields = if k = v.number then [list] else []

/-- The key of an entry, the last one where there are several, and its feature, in any order. -/
def EntryEnc (unpacked : Bool) (entry : List Char × FeatureValue) (bs : Bytes) : Prop :=
  ∃ fields feature, ∃ earlier : List (List Char), Encoded fields bs ∧
    payloads 1 fields = (earlier ++ [entry.1]).map encodeUtf8 ∧
    payloads 2 fields = [feature] ∧ FeatureEnc unpacked entry.2 feature

/-- The encodings of a tf.Example with the entries of its map in some order; the map itself is
there once, or left out where it is empty. A map, a feature or a list that is there in several
parts, which protobuf merges, is left out: the parser loses all parts but one. -/
def ExampleEnc (unpacked : Bool) (entries : List (List Char × FeatureValue)) (raw : Bytes) : Prop :=
  ∃ fields, Encoded fields raw ∧ (payloads 1 fields = [] ∧ entries = [] ∨
    ∃ features entryFields, payloads 1 fields = [features] ∧ Encoded entryFields features ∧
      List.Forall₂ (EntryEnc unpacked) entries (payloads 1 entryFields))

/-- What the parser makes of a feature; of integers it makes nothing. -/
def parsed : FeatureValue → Option Feature
  | .bytes values => some (.bytes values)
  | .floats values => some (.floats values)
  | .int64s _ => none

section Bodies
variable {field : Field} {bs : Bytes}

/-- A field is read for what it holds under the number 1, or skipped. -/
theorem takeLen_or_skip (h : field.content.Encodes bs) (number : Nat) (rest : Bytes) :
    (∃ payload, field.content.wireType = 2 ∧ field.number = number ∧
        payloadOf number field = some payload ∧ takeLen (bs ++ rest) = .ok (payload, rest)) ∨
      ¬ (field.number = number ∧ field.content.wireType = 2) ∧ payloadOf number field = none := by
  rcases payloadOf_cases number field with ⟨payload, hcontent, hn, hp⟩ | ⟨hne, hp⟩
  · rw [hcontent] at h
    exact .inl ⟨payload, by rw [hcontent]; rfl, hn, hp, takeLen_encodes h rest⟩
  · exact .inr ⟨hne, hp⟩

theorem bytesListField_encodes (out : List Bytes) (h : field.content.Encodes bs) (rest : Bytes) :
    bytesListField out field.number field.content.wireType (bs ++ rest) =
      .ok (.next (out ++ (payloadOf 1 field).toList), rest) := by
  rw [bytesListField]
  rcases takeLen_or_skip h 1 rest with ⟨payload, hwt, hn, hp, htake⟩ | ⟨hne, hp⟩
  · rw [if_pos ⟨hn, hwt⟩, htake, hp]
    rfl
  · rw [if_neg hne, skip_encodes h, hp, Option.toList_none, List.append_nil]
    rfl

theorem floatListField_encodes (floats : List UInt32) (h : field.content.Encodes bs)
    (hwhole : ∀ chunk, payloadOf 1 field = some chunk → chunk.length % 4 = 0) (rest : Bytes) :
    floatListField floats field.number field.content.wireType (bs ++ rest) =
      .ok (.next (floats ++ (payloadOf 1 field).elim [] float32s), rest) := by
  rw [floatListField]
  rcases takeLen_or_skip h 1 rest with ⟨payload, hwt, hn, hp, htake⟩ | ⟨hne, hp⟩
  · rw [if_pos ⟨hn, hwt⟩, htake, Parse.ok_bind]
    dsimp only
    rw [frombuffer, if_pos (hwhole payload hp), hp]
    rfl
  · rw [if_neg hne, skip_encodes h, hp, Option.elim_none, List.append_nil]
    rfl

theorem exampleField_encodes (found : Option Bytes) (h : field.content.Encodes bs)
    (rest : Bytes) :
    exampleField found field.number field.content.wireType (bs ++ rest) =
      .ok (.leaveWith (payloadOf 1 field) found, rest) := by
  rw [exampleField]
  rcases takeLen_or_skip h 1 rest with ⟨payload, hwt, hn, hp, htake⟩ | ⟨hne, hp⟩
  · rw [if_pos ⟨hn, hwt⟩, htake, hp]
    rfl
  · rw [if_neg hne, skip_encodes h, hp]
    rfl

/-- The list of a feature, with its number. -/
def kindOf (field : Field) : Option (Nat × Bytes) :=
  (payloadOf 1 field).map (1, ·) <|> (payloadOf 2 field).map (2, ·)

theorem featureField_encodes (kind : Option (Nat × Bytes)) (h : field.content.Encodes bs)
    (rest : Bytes) :
    featureField kind field.number field.content.wireType (bs ++ rest) =
      .ok (.leaveWith (kindOf field) kind, rest) := by
  obtain ⟨n, content⟩ := field
  cases content with
  | len payload =>
    rw [featureField, if_neg (fun hne => hne rfl), takeLen_encodes h, Parse.ok_bind]
    dsimp only
    by_cases hn : n = 1 ∨ n = 2
    · rw [if_pos hn]
      rcases hn with rfl | rfl <;> rfl
    · have hnone : kindOf ⟨n, .len payload⟩ = none := by
        rw [not_or] at hn
        simp only [kindOf, payloadOf, if_neg hn.1, if_neg hn.2, Option.map_none]
        rfl
      rw [if_neg hn, hnone]
      rfl
  | _ =>
    rw [featureField, if_pos (fun hwt => nomatch hwt), skip_encodes h]
    rfl

theorem entryField_encodes (s : Entry) (h : field.content.Encodes bs)
    (hkey : ∀ key, payloadOf 1 field = some key → decodeUtf8 key ≠ none) (rest : Bytes) :
    entryField s field.number field.content.wireType (bs ++ rest) =
      .ok (.next ((payloadOf 1 field).bind decodeUtf8 <|> s.1, payloadOf 2 field <|> s.2), rest) := by
  obtain ⟨n, content⟩ := field
  cases content with
  | len payload =>
    rw [entryField, if_neg (fun hne => hne rfl), takeLen_encodes h, Parse.ok_bind]
    dsimp only
    by_cases hn : n = 1
    · subst hn
      obtain ⟨key, hdec⟩ := Option.ne_none_iff_exists'.1 (hkey payload rfl)
      have hbind : (payloadOf 1 ⟨1, .len payload⟩).bind decodeUtf8 = some key := hdec
      rw [if_pos rfl, hdec, hbind]
      rfl
    · rw [if_neg hn]
      have hnone : payloadOf 1 ⟨n, .len payload⟩ = none := if_neg hn
      rw [hnone]
      by_cases hn' : n = 2
      · subst hn'
        rfl
      · have hnone' : payloadOf 2 ⟨n, .len payload⟩ = none := if_neg hn'
        rw [if_neg hn', hnone']
        rfl
  | _ =>
    rw [entryField, if_pos (fun hwt => nomatch hwt), skip_encodes h]
    rfl

end Bodies

section Parsers
variable {fields : List Field} {data : Bytes}

theorem parseBytesList_encoded (h : Encoded fields data) :
    parseBytesList data = .ok (payloads 1 fields) := by
  rw [parseBytesList, eachField_encoded bytesListField
    (fun out field => .next (out ++ (payloadOf 1 field).toList)) h
    (fun out field _ bs rest hbs => bytesListField_encodes out hbs rest) (Nat.le_refl _),
    readFields_next, foldl_append_flatMap, List.nil_append, payloads,
    List.filterMap_eq_flatMap_toList]

/-- A packed field adds the singles of its chunk, and no other field adds any. -/
theorem elim_payloadOf {field : Field} (h : ¬ Unpacked field) :
    (payloadOf 1 field).elim [] float32s = fieldFloats field := by
  obtain ⟨n, content⟩ := field
  cases content with
  | len chunk =>
    rw [fieldFloats, payloadOf]
    by_cases hn : n = 1
    · simp only [if_pos hn, Option.elim_some]
    · simp only [if_neg hn, Option.elim_none]
  | fixed32 bits =>
    have hn : n ≠ 1 := fun hn => h ⟨hn, rfl⟩
    exact (if_neg hn).symm
  | _ => rfl

theorem parseFloatListPacked_encoded (h : Encoded fields data)
    (hwhole : ∀ chunk ∈ payloads 1 fields, chunk.length % 4 = 0)
    (hpacked : ∀ field ∈ fields, ¬ Unpacked field) :
    parseFloatListPacked data = .ok (fields.flatMap fieldFloats) := by
  have hsame : fields.flatMap (fun field => (payloadOf 1 field).elim [] float32s) =
      fields.flatMap fieldFloats :=
    List.flatMap_congr fun field hf => elim_payloadOf (hpacked field hf)
  rw [parseFloatListPacked, eachField_encoded floatListField
    (fun floats field => .next (floats ++ (payloadOf 1 field).elim [] float32s)) h
    (fun floats field hf bs rest hbs => floatListField_encodes floats hbs
      (fun chunk hp => hwhole chunk (mem_payloads hf hp)) rest) (Nat.le_refl _),
    readFields_next, foldl_append_flatMap, List.nil_append, hsame]

theorem payloadOf_eq_none (h : payloads number fields = []) (hf : field ∈ fields) :
    payloadOf number field = none :=
  List.filterMap_eq_nil_iff.1 h field hf

theorem filterMap_kindOf_one (h : payloads 2 fields = []) :
    fields.filterMap kindOf = (payloads 1 fields).map (1, ·) := by
  rw [payloads, List.map_filterMap]
  apply List.filterMap_congr
  intro field hf
  rw [kindOf, payloadOf_eq_none h hf]
  cases payloadOf 1 field <;> rfl

theorem filterMap_kindOf_two (h : payloads 1 fields = []) :
    fields.filterMap kindOf = (payloads 2 fields).map (2, ·) := by
  rw [payloads, List.map_filterMap]
  apply List.filterMap_congr
  intro field hf
  rw [kindOf, payloadOf_eq_none h hf]
  cases payloadOf 2 field <;> rfl

theorem findKind_encoded (h : Encoded fields data) :
    eachField featureField data.length none data = .ok (fields.filterMap kindOf).head? := by
  rw [eachField_encoded featureField _ h
    (fun kind field _ bs rest hbs => featureField_encodes kind hbs rest) (Nat.le_refl _),
    readFields_leaveWith]

/-- A feature is read as its list. -/
theorem parseFeature_encoded (h : FeatureEnc false v data) :
    parseFeature data = .ok (parsed v) := by
  obtain ⟨fields, list, henc, hlist, hkinds⟩ := h
  have h1 := hkinds 1 (.inl rfl)
  have h2 := hkinds 2 (.inr (.inl rfl))
  rw [parseFeature, findKind_encoded henc, Parse.ok_bind]
  cases hlist with
  | bytes hvalues =>
    rw [FeatureValue.number, if_neg (by decide)] at h2
    rw [FeatureValue.number, if_pos rfl] at h1
    rw [filterMap_kindOf_one h2, h1]
    exact congrArg (· >>= fun values => Parse.ok (some (Feature.bytes values)))
      (parseBytesList_encoded hvalues)
  | floats hvalues hwhole hpacked =>
    rw [FeatureValue.number, if_neg (by decide)] at h1
    rw [FeatureValue.number, if_pos rfl] at h2
    rw [filterMap_kindOf_two h1, h2]
    exact congrArg (· >>= fun values => Parse.ok (some (Feature.floats values)))
      (parseFloatListPacked_encoded hvalues hwhole (hpacked rfl))
  | int64s hvalues =>
    rw [FeatureValue.number, if_neg (by decide)] at h1
    rw [FeatureValue.number, if_neg (by decide)] at h2
    rw [filterMap_kindOf_two h1, h2]
    rfl

theorem filterMap_decodeUtf8 (keys : List (List Char)) :
    (keys.map encodeUtf8).filterMap decodeUtf8 = keys := by
  induction keys with
  | nil => rfl
  | cons key keys ih =>
    rw [List.map_cons, List.filterMap_cons_some (decodeUtf8_encodeUtf8 key), ih]

theorem findEntry_encoded {earlier : List (List Char)} (h : Encoded fields data)
    (hkey : payloads 1 fields = (earlier ++ [key]).map encodeUtf8)
    (hvalue : payloads 2 fields = [feature]) :
    eachField entryField data.length (none, none) data = .ok (some key, some feature) := by
  have hkeys : ∀ field ∈ fields, ∀ bs, payloadOf 1 field = some bs → decodeUtf8 bs ≠ none := by
    intro field hf bs hp
    have hmem := mem_payloads hf hp
    rw [hkey, List.mem_map] at hmem
    obtain ⟨key, _, rfl⟩ := hmem
    rw [decodeUtf8_encodeUtf8]
    exact Option.some_ne_none _
  rw [eachField_encoded entryField (fun s field => .next
    ((payloadOf 1 field).bind decodeUtf8 <|> s.1, payloadOf 2 field <|> s.2)) h
    (fun s field hf bs rest hbs => entryField_encodes s hbs (hkeys field hf) rest) (Nat.le_refl _),
    readFields_next, foldl_pair (fun s field => (payloadOf 1 field).bind decodeUtf8 <|> s)
      (fun s field => payloadOf 2 field <|> s), foldl_orElse, foldl_orElse,
    ← List.filterMap_filterMap, ← payloads, ← payloads, hkey, hvalue, filterMap_decodeUtf8,
    List.getLast?_append]
  rfl

theorem parseEntry_encoded (h : EntryEnc false entry data) :
    ∃ feature, FeatureEnc false entry.2 feature ∧
      eachField entryField data.length (none, none) data = .ok (some entry.1, some feature) := by
  obtain ⟨fields, feature, earlier, henc, hkey, hvalue, hfeature⟩ := h
  exact ⟨feature, hfeature, findEntry_encoded henc hkey hvalue⟩

/-- What an entry adds to the features that are wanted. -/
def setParsed (wanted : List (List Char)) (out : Parsed) (entry : List Char × FeatureValue) :
    Parsed :=
  if wanted.contains entry.1 then out.set entry.1 (parsed entry.2) else out

/-- An entry taken apart and added. -/
def parseAndAdd (wanted : List (List Char)) (out : Parsed) (ent : Bytes) : Parse Parsed :=
  eachField entryField ent.length (none, none) ent >>= addEntry wanted out

theorem parseAndAdd_encoded (h : EntryEnc false entry ent) (wanted : List (List Char))
    (out : Parsed) : parseAndAdd wanted out ent = .ok (setParsed wanted out entry) := by
  obtain ⟨feature, hfeature, hentry⟩ := parseEntry_encoded h
  rw [parseAndAdd, hentry, Parse.ok_bind, addEntry, setParsed]
  split
  · rw [parseFeature_encoded hfeature]
    rfl
  · rfl

/-- What is known of the outcome of a run that went through. -/
def Parse.getD (x : Parse α) (a : α) : α :=
  match x with
  | .ok a => a
  | _ => a

def mapReact (wanted : List (List Char)) (out : Parsed) (field : Field) : Flow Parsed :=
  .next ((payloadOf 1 field).elim out fun ent => (parseAndAdd wanted out ent).getD out)

theorem featuresField_encodes {field : Field} (wanted : List (List Char)) (out : Parsed)
    (h : field.content.Encodes bs)
    (hentry : ∀ ent, payloadOf 1 field = some ent → ∃ entry, EntryEnc false entry ent)
    (rest : Bytes) :
    featuresField wanted out field.number field.content.wireType (bs ++ rest) =
      .ok (mapReact wanted out field, rest) := by
  rw [featuresField, mapReact]
  rcases takeLen_or_skip h 1 rest with ⟨ent, hwt, hn, hp, htake⟩ | ⟨hne, hp⟩
  · obtain ⟨entry, henc⟩ := hentry ent hp
    have hadd := parseAndAdd_encoded henc wanted out
    obtain ⟨_, _, hfound⟩ := parseEntry_encoded henc
    rw [if_pos ⟨hn, hwt⟩, htake, hp, Option.elim_some, hadd, Parse.ok_bind]
    dsimp only
    rw [parseAndAdd, hfound, Parse.ok_bind] at hadd
    rw [hfound, Parse.ok_bind, hadd]
    rfl
  · rw [if_neg hne, skip_encodes h, hp, Option.elim_none]
    rfl

theorem foldl_payloads (f : σ → Bytes → σ) (s : σ) (fields : List Field) :
    fields.foldl (fun s field => (payloadOf 1 field).elim s (f s)) s =
      (payloads 1 fields).foldl f s := by
  induction fields generalizing s with
  | nil => rfl
  | cons field fields ih =>
    rw [List.foldl_cons, ih, payloads, payloads]
    cases hp : payloadOf 1 field with
    | none => rw [List.filterMap_cons_none hp, Option.elim_none]
    | some ent => rw [List.filterMap_cons_some hp, Option.elim_some, List.foldl_cons]

theorem exists_entry {ents : List Bytes} {entries : List (List Char × FeatureValue)}
    (h : List.Forall₂ (EntryEnc false) entries ents) (hent : ent ∈ ents) :
    ∃ entry, EntryEnc false entry ent := by
  induction h with
  | nil => cases hent
  | cons h _ ih =>
    rcases List.mem_cons.1 hent with rfl | hent
    · exact ⟨_, h⟩
    · exact ih hent

theorem foldl_entries {ents : List Bytes} {entries : List (List Char × FeatureValue)}
    (h : List.Forall₂ (EntryEnc false) entries ents) (wanted : List (List Char)) (out : Parsed) :
    ents.foldl (fun out ent => (parseAndAdd wanted out ent).getD out) out =
      entries.foldl (setParsed wanted) out := by
  induction h generalizing out with
  | nil => rfl
  | cons h _ ih => rw [List.foldl_cons, List.foldl_cons, parseAndAdd_encoded h, ih]; rfl

/-- The parser goes through the entries of the map in their order. -/
theorem parseExample_encoded (h : ExampleEnc false entries raw) (wanted : List (List Char)) :
    parseExample raw wanted = .ok (entries.foldl (setParsed wanted) []) := by
  obtain ⟨fields, henc, hmap⟩ := h
  have hfind : eachField exampleField raw.length none raw = .ok (payloads 1 fields).head? := by
    rw [eachField_encoded exampleField _ henc
      (fun found field _ bs rest hbs => exampleField_encodes found hbs rest) (Nat.le_refl _),
      readFields_leaveWith]
    rfl
  rw [parseExample, hfind, Parse.ok_bind]
  rcases hmap with ⟨hnone, rfl⟩ | ⟨features, entryFields, hone, hfeatures, hentries⟩
  · rw [hnone]
    rfl
  · have hents : ∀ field ∈ entryFields, ∀ ent, payloadOf 1 field = some ent →
        ∃ entry, EntryEnc false entry ent := by
      intro field hf ent hp
      exact exists_entry hentries (mem_payloads hf hp)
    rw [hone]
    change eachField (featuresField wanted) features.length [] features = _
    rw [eachField_encoded (featuresField wanted) (mapReact wanted) hfeatures
      (fun out field hf bs rest hbs => featuresField_encodes wanted out hbs (hents field hf) rest)
      (Nat.le_refl _)]
    unfold mapReact
    rw [readFields_next, foldl_payloads, foldl_entries hentries]

end Parsers

end ActQuant.Fisher
