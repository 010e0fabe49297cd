import ActQuant.Fisher.TfRead

namespace ActQuant.Fisher
open ActQuant.Lib

/-- The run comes to its end, and what it returns is as said. -/
def Parse.Ends (P : α → Prop) : Parse α → Prop
  | .ok a => P a
  | .raised _ => True
  | .running => False

theorem Parse.Ends.bind {x : Parse α} {f : α → Parse β} {Q : β → Prop} (h : x.Ends P)
    (hf : ∀ a, P a → (f a).Ends Q) : (x >>= f).Ends Q := by
  cases x with
  | ok a => exact hf a h
  | raised => trivial
  | running => exact h

theorem Parse.Ends.imp {x : Parse α} (h : x.Ends P) (hPQ : ∀ a, P a → Q a) : x.Ends Q := by
  cases x with
  | ok a => exact hPQ a h
  | raised => trivial
  | running => exact h

section Termination

/-- At least one byte is read. -/
theorem vintFrom_ends (result shift : Nat) (buf : Bytes) :
    (vintFrom result shift buf).Ends fun r => r.2.length < buf.length := by
  induction buf generalizing result shift with
  | nil => trivial
  | cons b rest ih =>
    rw [vintFrom]
    split
    · exact Nat.lt_succ_self _
    · exact (ih _ _).imp fun r hr => Nat.lt_succ_of_lt hr

theorem vint_ends (buf : Bytes) : (vint buf).Ends fun r => r.2.length < buf.length :=
  vintFrom_ends 0 0 buf

theorem skipVarint_ends (buf : Bytes) :
    (skipVarint buf).Ends fun rest => rest.length ≤ buf.length := by
  induction buf with
  | nil => trivial
  | cons b rest ih =>
    rw [skipVarint]
    split
    · exact Nat.le_succ _
    · exact ih.imp fun _ h => Nat.le_succ_of_le h

theorem drop_ends (rest : Bytes) (n : Nat) (h : rest.length ≤ m) : (rest.drop n).length ≤ m := by
  rw [List.length_drop]
  omega

theorem skip_ends (buf : Bytes) (wt : Nat) :
    (skip buf wt).Ends fun rest => rest.length ≤ buf.length := by
  rw [skip.eq_def]
  split
  · exact skipVarint_ends buf
  · exact drop_ends buf 8 (Nat.le_refl _)
  · exact drop_ends buf 4 (Nat.le_refl _)
  · exact (vint_ends buf).bind fun r hr => drop_ends r.2 r.1 (Nat.le_of_lt hr)
  · trivial

theorem takeLen_ends (buf : Bytes) : (takeLen buf).Ends fun r => r.2.length ≤ buf.length :=
  (vint_ends buf).bind fun r hr => drop_ends r.2 r.1 (Nat.le_of_lt hr)

/-- A body of a loop comes to its end with no more bytes left than it was given. -/
def BodyEnds (body : σ → Nat → Nat → Bytes → Parse (Flow σ × Bytes)) : Prop :=
  ∀ s fn wt rest, (body s fn wt rest).Ends fun r => r.2.length ≤ rest.length

/-- Every turn reads at least its tag, so that there are no more turns than bytes. -/
theorem eachField_ends {body : σ → Nat → Nat → Bytes → Parse (Flow σ × Bytes)}
    (hbody : BodyEnds body) (s : σ) (h : data.length ≤ turns) :
    (eachField body turns s data).Ends fun _ => True := by
  induction turns generalizing s data with
  | zero =>
    cases data with
    | nil => trivial
    | cons b data => cases h
  | succ turns ih =>
    cases data with
    | nil => trivial
    | cons b data =>
      rw [eachField]
      refine (vint_ends (b :: data)).bind fun r hr => ?_
      refine (hbody s (r.1 >>> 3) (r.1 &&& 7) r.2).bind fun r' hr' => ?_
      have hlen : r'.2.length ≤ turns := by
        simp only [List.length_cons] at hr h
        omega
      dsimp only
      split
      · exact ih _ hlen
      · trivial

theorem skip_next_ends (s : σ) (rest : Bytes) (wt : Nat) (f : σ → Flow σ) :
    (skip rest wt >>= fun rest => Parse.ok (f s, rest)).Ends fun r => r.2.length ≤ rest.length :=
  (skip_ends rest wt).bind fun _ h => h

theorem bytesListField_ends : BodyEnds bytesListField := by
  intro out fn wt rest
  rw [bytesListField]
  split
  · exact (takeLen_ends rest).bind fun _ h => h
  · exact skip_next_ends out rest wt .next

theorem floatListField_ends : BodyEnds floatListField := by
  intro floats fn wt rest
  rw [floatListField]
  split
  · refine (takeLen_ends rest).bind fun r h => ?_
    have hbuffer : (frombuffer r.1).Ends fun _ => True := by
      rw [frombuffer]
      split <;> trivial
    exact hbuffer.bind fun _ _ => h
  · exact skip_next_ends floats rest wt .next

theorem featureField_ends : BodyEnds featureField := by
  intro kind fn wt rest
  rw [featureField]
  split
  · exact skip_next_ends kind rest wt .next
  · refine (takeLen_ends rest).bind fun r h => ?_
    dsimp only
    split <;> exact h

theorem exampleField_ends : BodyEnds exampleField := by
  intro found fn wt rest
  rw [exampleField]
  split
  · exact (takeLen_ends rest).bind fun _ h => h
  · exact skip_next_ends found rest wt .next

theorem entryField_ends : BodyEnds entryField := by
  intro s fn wt rest
  rw [entryField]
  split
  · exact skip_next_ends s rest wt .next
  · refine (takeLen_ends rest).bind fun r h => ?_
    dsimp only
    split
    · split
      · exact h
      · trivial
    · split <;> exact h

theorem parseFeature_ends (data : Bytes) : (parseFeature data).Ends fun _ => True := by
  refine (eachField_ends featureField_ends none (Nat.le_refl _)).bind fun kind _ => ?_
  cases kind with
  | none => trivial
  | some r =>
    dsimp only
    split
    · exact (eachField_ends bytesListField_ends [] (Nat.le_refl _)).bind fun _ _ => trivial
    · exact (eachField_ends floatListField_ends [] (Nat.le_refl _)).bind fun _ _ => trivial

theorem addEntry_ends (wanted : List (List Char)) (out : Parsed) (entry : Entry) :
    (addEntry wanted out entry).Ends fun _ => True := by
  rw [addEntry.eq_def]
  split
  · split
    · exact (parseFeature_ends _).bind fun _ _ => trivial
    · trivial
  · trivial

theorem featuresField_ends (wanted : List (List Char)) : BodyEnds (featuresField wanted) := by
  intro out fn wt rest
  rw [featuresField]
  split
  · refine (takeLen_ends rest).bind fun r h => ?_
    refine (eachField_ends entryField_ends (none, none) (Nat.le_refl _)).bind fun entry _ => ?_
    exact (addEntry_ends wanted out entry).bind fun _ _ => h
  · exact skip_next_ends out rest wt .next

theorem parseExample_ends (raw : Bytes) (wanted : List (List Char)) :
    (parseExample raw wanted).Ends fun _ => True := by
  refine (eachField_ends exampleField_ends none (Nat.le_refl _)).bind fun found _ => ?_
  cases found with
  | none => trivial
  | some features => exact eachField_ends (featuresField_ends wanted) [] (Nat.le_refl _)

end Termination

section Inverse

theorem lookup_entries (entries : List (List Char × FeatureValue)) (wanted : List (List Char))
    (key : List Char) :
    (entries.foldl (setParsed wanted) []).lookup key =
      if wanted.contains key then
        (entries.filter (·.1 = key)).getLast?.map fun entry => parsed entry.2
      else none := by
  let keyOf (entry : List Char × FeatureValue) : Option (List Char) :=
    if wanted.contains entry.1 then some entry.1 else none
  have hfound := Dict.lookup_foldl_set keyOf (fun entry => parsed entry.2) entries key
  refine Eq.trans (congrArg (fun f => (entries.foldl f []).lookup key) ?hstep) (hfound.trans ?hlast)
  case hstep =>
    funext out entry
    rw [setParsed]
    by_cases hw : wanted.contains entry.1 = true
    · have hkey : keyOf entry = some entry.1 := if_pos hw
      rw [if_pos hw, hkey]
    · have hkey : keyOf entry = none := if_neg hw
      rw [if_neg hw, hkey]
  by_cases hw : wanted.contains key = true
  · have hsame : entries.filter (fun entry => keyOf entry = some key) =
        entries.filter (·.1 = key) := by
      apply List.filter_congr
      intro entry _
      by_cases hkey : entry.1 = key
      · subst hkey
        simp only [keyOf, if_pos hw]
      · have hne : keyOf entry ≠ some key := by
          simp only [keyOf]
          split
          · exact fun h => hkey (Option.some.inj h)
          · exact (Option.some_ne_none key).symm
        rw [decide_eq_false hne, decide_eq_false hkey]
    rw [if_pos hw, hsame]
  · have hnone : entries.filter (fun entry => keyOf entry = some key) = [] := by
      rw [List.filter_eq_nil_iff]
      intro entry _ hkey
      rw [decide_eq_true_eq] at hkey
      simp only [keyOf] at hkey
      split at hkey
      case isTrue hmem =>
        cases hkey
        exact hw hmem
      case isFalse => cases hkey
    rw [if_neg hw, hnone]
    rfl

/-- A field of fewer than 128 bytes in front of others. -/
theorem Encoded.short (number : Nat) (tag size : UInt8) (payload : Bytes) {rest : Bytes}
    (htag : tag.toNat < 128 ∧ tag.toNat = 8 * number + 2)
    (hsize : size.toNat < 128 ∧ size.toNat = payload.length) (h : Encoded fields rest) :
    Encoded (⟨number, .len payload⟩ :: fields) (tag :: size :: (payload ++ rest)) := by
  have hvtag : Varint (8 * number + 2) [tag] := htag.2 ▸ Varint.last htag.1
  have hvsize : Varint payload.length [size] := hsize.2 ▸ Varint.last hsize.1
  let field : Field := ⟨number, .len payload⟩
  exact .cons (show Varint (8 * field.number + field.content.wireType) [tag] from hvtag)
    (.len hvsize) h

/-- A tf.Example with a list of singles under the key `a` and nothing else. -/
def oneFloats (list : Bytes) : Bytes :=
  let feature := 0x12 :: list.length.toUInt8 :: (list ++ [])
  let ent := 0x0A :: 1 :: ([97] ++ 0x12 :: feature.length.toUInt8 :: (feature ++ []))
  let features := 0x0A :: ent.length.toUInt8 :: (ent ++ [])
  0x0A :: features.length.toUInt8 :: (features ++ [])

theorem toNat_toUInt8 (h : n < 128) : n.toUInt8.toNat < 128 ∧ n.toUInt8.toNat = n := by
  have hn : n.toUInt8.toNat = n := by
    rw [Nat.toUInt8_eq, UInt8.toNat_ofNat_of_lt']
    exact Nat.lt_trans h (by decide)
  rw [hn]
  exact ⟨h, rfl⟩

theorem oneFloats_encodes (h : ListEnc unpacked (.floats values) list) (hlen : list.length < 100) :
    ExampleEnc unpacked [(['a'], .floats values)] (oneFloats list) := by
  have hshort (bs : Bytes) (hbs : bs.length < 128) := toNat_toUInt8 hbs
  have hfeature := Encoded.short 2 0x12 _ list (by decide) (hshort list (by omega)) .nil
  have hfeatureLen : (0x12 :: list.length.toUInt8 :: (list ++ [])).length < 128 := by
    simp only [List.length_cons, List.length_append, List.length_nil]
    omega
  have hentry := Encoded.short 1 0x0A 1 [97] (by decide) (by decide)
    (Encoded.short 2 0x12 _ _ (by decide) (hshort _ hfeatureLen) .nil)
  refine ⟨_, Encoded.short 1 0x0A _ _ (by decide) (hshort _ ?_) .nil,
    .inr ⟨_, _, rfl, Encoded.short 1 0x0A _ _ (by decide) (hshort _ ?_) .nil,
      .cons ⟨_, _, [], hentry, rfl, rfl, _, list, hfeature, h, ?_⟩ .nil⟩⟩
  · simp only [List.length_cons, List.length_append, List.length_nil]
    omega
  · simp only [List.length_cons, List.length_append, List.length_nil]
    omega
  · rintro k (rfl | rfl | rfl) <;> rfl

/-- Of an encoding with packed singles the parser returns each wanted feature, and integers as
`None`; it comes to an end on all bytes. -/
theorem parseExample_inverts (wanted : List (List Char)) :
    (∀ entries raw, ExampleEnc false entries raw →
      ∃ out, parseExample raw wanted = .ok out ∧ ∀ key, out.lookup key =
        if wanted.contains key then
          (entries.filter (·.1 = key)).getLast?.map fun entry => parsed entry.2
        else none) ∧
    ∀ raw, parseExample raw wanted ≠ .running := by
  constructor
  · intro entries raw henc
    exact ⟨_, parseExample_encoded henc wanted, lookup_entries entries wanted⟩
  · intro raw hrun
    have hends := parseExample_ends raw wanted
    rw [hrun] at hends
    exact hends

theorem parseExample_inverts_one :
    (∃ out, parseExample (oneFloats [0x0A, 4, 0, 0, 0x80, 0x3F]) [['a']] = .ok out ∧
      ∀ key, out.lookup key = if [['a']].contains key then
        ([(['a'], FeatureValue.floats [0x3F800000])].filter (·.1 = key)).getLast?.map
          fun entry => parsed entry.2
        else none) ∧
    parseExample [0x0A] [['a']] ≠ .running := by
  have hlist : Encoded [⟨1, .len [0, 0, 0x80, 0x3F]⟩] [0x0A, 4, 0, 0, 0x80, 0x3F] :=
    Encoded.short 1 0x0A 4 [0, 0, 0x80, 0x3F] (by decide) (by decide) .nil
  have henc : ListEnc false (.floats [0x3F800000]) [0x0A, 4, 0, 0, 0x80, 0x3F] := by
    refine .floats hlist ?_ ?_
    · intro chunk hchunk
      rw [List.mem_singleton.1 hchunk]
      rfl
    · intro _ field hf hunpacked
      rw [List.mem_singleton.1 hf] at hunpacked
      exact nomatch hunpacked.2
  have hall := parseExample_inverts [['a']]
  exact ⟨hall.1 _ _ (oneFloats_encodes henc (by decide)), hall.2 [0x0A]⟩

/-- A single in a field of its own is lost. -/
theorem unpacked_single_lost :
    ∃ raw, ExampleEnc true [(['a'], .floats [0x3F800000])] raw ∧
      parseExample raw [['a']] = .ok [(['a'], some (.floats []))] := by
  have hlist : Encoded [⟨1, .fixed32 [0, 0, 0x80, 0x3F]⟩] [0x0D, 0, 0, 0x80, 0x3F] :=
    let field : Field := ⟨1, .fixed32 [0, 0, 0x80, 0x3F]⟩
    .cons (show Varint (8 * field.number + field.content.wireType) [0x0D] from
      .last (b := 0x0D) (by decide)) (.fixed32 rfl) .nil
  have henc : ListEnc true (.floats [0x3F800000]) [0x0D, 0, 0, 0x80, 0x3F] :=
    .floats hlist (fun _ h => nomatch h) (fun h => nomatch h)
  refine ⟨_, oneFloats_encodes henc (by decide), ?_⟩
  have hfields : Encoded [⟨1, .len [97]⟩, ⟨2, .len [0x12, 5, 0x0D, 0, 0, 0x80, 0x3F]⟩]
      [0x0A, 1, 97, 0x12, 7, 0x12, 5, 0x0D, 0, 0, 0x80, 0x3F] :=
    Encoded.short 1 0x0A 1 [97] (by decide) (by decide)
      (Encoded.short 2 0x12 7 [0x12, 5, 0x0D, 0, 0, 0x80, 0x3F] (by decide) (by decide) .nil)
  have hentry : eachField entryField 12 (none, none)
      [0x0A, 1, 97, 0x12, 7, 0x12, 5, 0x0D, 0, 0, 0x80, 0x3F] =
        .ok (some ['a'], some [0x12, 5, 0x0D, 0, 0, 0x80, 0x3F]) :=
    findEntry_encoded hfields (show _ = ([] ++ [['a']]).map encodeUtf8 from rfl) rfl
  have hfind : eachField exampleField 16 none (oneFloats [0x0D, 0, 0, 0x80, 0x3F]) =
      .ok (some [0x0A, 12, 0x0A, 1, 97, 0x12, 7, 0x12, 5, 0x0D, 0, 0, 0x80, 0x3F]) := by decide
  have htag : vint [0x0A, 12, 0x0A, 1, 97, 0x12, 7, 0x12, 5, 0x0D, 0, 0, 0x80, 0x3F] =
      .ok (10, [12, 0x0A, 1, 97, 0x12, 7, 0x12, 5, 0x0D, 0, 0, 0x80, 0x3F]) := by decide
  have htake : takeLen [12, 0x0A, 1, 97, 0x12, 7, 0x12, 5, 0x0D, 0, 0, 0x80, 0x3F] =
      .ok ([0x0A, 1, 97, 0x12, 7, 0x12, 5, 0x0D, 0, 0, 0x80, 0x3F], []) := by decide
  have hfeature : parseFeature [0x12, 5, 0x0D, 0, 0, 0x80, 0x3F] = .ok (some (.floats [])) := by
    decide
  have hone : featuresField [['a']] [] 1 2 [12, 0x0A, 1, 97, 0x12, 7, 0x12, 5, 0x0D, 0, 0, 0x80,
      0x3F] = .ok (.next [(['a'], some (.floats []))], []) := by
    rw [featuresField, if_pos ⟨rfl, rfl⟩, htake, Parse.ok_bind]
    dsimp only
    change (eachField entryField 12 _ _ >>= _) = _
    rw [hentry, Parse.ok_bind, addEntry, if_pos (by decide), hfeature]
    rfl
  change (eachField exampleField 16 none (oneFloats [0x0D, 0, 0, 0x80, 0x3F]) >>= _) = _
  rw [hfind, Parse.ok_bind]
  dsimp only
  rw [List.length_cons, eachField, htag, Parse.ok_bind]
  change (featuresField [['a']] [] 1 2 _ >>= _) = _
  rw [hone]
  rfl

end Inverse

end ActQuant.Fisher
