import ActQuant.Gguf.Reader

namespace ActQuant.Gguf
open ActQuant.Lib ActQuant.Quant ActQuant.Lib.Reader

/-- The encodings of a string that can be allocated. -/
def StringEnc (mem : Memory) (enc s : Bytes) : Prop :=
  enc = encodeStr s ∧ s.length < 2 ^ 64 ∧ mem s.length = true

/-- The length of a string that cannot be allocated. -/
def TooLong (mem : Memory) (bs : Bytes) : Prop :=
  ∃ size rest, bs = leBytes 8 size ++ rest ∧ size < 2 ^ 64 ∧ mem size = false

/-- The encodings of a value; a bool has one for every byte. -/
def ValueEnc (mem : Memory) : (t : GgufType) → Bytes → t.Val → Prop
  | .string, enc, s => StringEnc mem enc s
  | t, enc, v => ∃ n, (enc = leBytes t.size n ∧ n < 256 ^ t.size) ∧ v = t.ofBits n

/-- The encodings of the value of a pair, its type in front. -/
inductive KvValueEnc (mem : Memory) : Bytes → KvValue → Prop where
  | scalar (hvalue : ValueEnc mem t enc v) :
      KvValueEnc mem (leBytes 4 t.number ++ enc) (.scalar t v)
  | array (hmem : mem (t.vectorBytes values.length) = true) (hlen : values.length < 2 ^ 64)
      (hvalues : Many (ValueEnc mem t) enc values) :
      KvValueEnc mem (leBytes 4 arrayNumber ++ (leBytes 4 t.number ++
        (leBytes 8 values.length ++ enc))) (.array t values)

/-- A pair behind others: its key is new. -/
def KvStep (mem : Memory) (kvs : Kvs) (enc : Bytes) (kvs' : Kvs) : Prop :=
  ∃ key value keyEnc valueEnc, enc = keyEnc ++ valueEnc ∧ StringEnc mem keyEnc key ∧
    key ∉ kvs.map Prod.fst ∧ KvValueEnc mem valueEnc value ∧ key ≠ [] ∧ kvs' = kvs ++ [(key, value)]

/-- The value of a pair is a string that cannot be allocated. -/
def HugeScalar (mem : Memory) (bs : Bytes) : Prop :=
  ∃ rest, bs = leBytes 4 GgufType.string.number ++ rest ∧ TooLong mem rest

/-- The faults in a pair behind others. -/
inductive KvFault (mem : Memory) (kvs : Kvs) : Fault → Bytes → Prop where
  | huge (hkey : StringEnc mem keyEnc key) (hfresh : key ∉ kvs.map Prod.fst)
      (hvalue : HugeScalar mem rest) : KvFault mem kvs .uncaughtException (keyEnc ++ rest)
  | empty (hkey : StringEnc mem keyEnc []) (hfresh : [] ∉ kvs.map Prod.fst)
      (hvalue : KvValueEnc mem valueEnc value) (rest : Bytes) :
      KvFault mem kvs .emptyKey (keyEnc ++ (valueEnc ++ rest))

section Values
variable {mem : Memory}

theorem spec_readString {throws : Reader Fault Bytes} {F : Fault → Bytes → Prop}
    (h : Spec throws (fun _ _ => False) F) :
    Spec (readString mem throws) (StringEnc mem) (fun f bs => ∃ size rest,
      bs = leBytes 8 size ++ rest ∧ size < 2 ^ 64 ∧ mem size = false ∧ F f rest) := by
  refine ((spec_number 8).bind fun size =>
    Spec.ite (fun _ => spec_bytes size) (fun _ => h)).congr ?_ ?_
  · intro enc s
    constructor
    · rintro ⟨size, _, enc, rfl, ⟨rfl, hsize⟩, ⟨hmem, rfl, rfl⟩ | ⟨_, hno⟩⟩
      · exact ⟨rfl, hsize, hmem⟩
      · exact hno.elim
    · rintro ⟨rfl, hsize, hmem⟩
      exact ⟨s.length, leBytes 8 s.length, s, rfl, ⟨rfl, hsize⟩, .inl ⟨hmem, rfl, rfl⟩⟩
  · intro f bs
    constructor
    · rintro (hno | ⟨size, _, rest, rfl, ⟨rfl, hsize⟩, ⟨_, hno⟩ | ⟨hmem, hF⟩⟩)
      · exact hno.elim
      · exact hno.elim
      · exact ⟨size, rest, rfl, hsize, Bool.eq_false_iff.2 hmem, hF⟩
    · rintro ⟨size, rest, rfl, hsize, hmem, hF⟩
      exact .inr ⟨size, _, rest, rfl, ⟨rfl, hsize⟩, .inr ⟨Bool.eq_false_iff.1 hmem, hF⟩⟩

theorem spec_readKey : Spec (readString mem null) (StringEnc mem) NoFault := by
  refine (spec_readString spec_null).congr (fun _ _ => Iff.rfl) ?_
  intro f bs
  exact ⟨fun ⟨_, _, _, _, _, h⟩ => h, fun h => h.elim⟩

/-- A scalar is read, or it is a string that throws. -/
theorem spec_readValue {throws : Reader Fault Bytes} {F : Fault → Bytes → Prop}
    (h : Spec throws (fun _ _ => False) F) (t : GgufType) :
    Spec (readValue mem throws t) (ValueEnc mem t) (fun f bs => t = .string ∧ ∃ size rest,
      bs = leBytes 8 size ++ rest ∧ size < 2 ^ 64 ∧ mem size = false ∧ F f rest) := by
  cases t with
  | string =>
    refine (spec_readString h).congr (fun _ _ => Iff.rfl) ?_
    intro f bs
    rw [eq_self, true_and]
  | _ =>
    refine ((spec_number _).map _).congr (fun _ _ => Iff.rfl) ?_
    intro f bs
    exact ⟨fun h => h.elim, fun h => (nomatch h.1)⟩

theorem spec_readElement (t : GgufType) : Spec (readValue mem null t) (ValueEnc mem t) NoFault := by
  refine (spec_readValue spec_null t).congr (fun _ _ => Iff.rfl) ?_
  intro f bs
  exact ⟨fun ⟨_, _, _, _, _, _, h⟩ => h, fun h => h.elim⟩

theorem spec_readArray (t : GgufType) (n : Nat) :
    Spec (readArray mem t n) (fun enc values => mem (t.vectorBytes n) = true ∧
      Many (ValueEnc mem t) enc values ∧ values.length = n) NoFault := by
  have helement : Spec (readValue mem null t) (ValueEnc mem t) NoFault := spec_readElement t
  have hstep (values : List t.Val) := helement.map fun value => values ++ [value]
  refine (Spec.ite (fun _ => Spec.loop hstep n []) (fun _ => spec_null)).congr ?_ ?_
  · intro enc values
    constructor
    · rintro (⟨hmem, hiter⟩ | ⟨_, hno⟩)
      · obtain ⟨more, hmany, hn, rfl⟩ := iter_snoc.1 hiter
        exact ⟨hmem, hmany, hn⟩
      · exact hno.elim
    · rintro ⟨hmem, hmany, hn⟩
      exact .inl ⟨hmem, iter_snoc.2 ⟨values, hmany, hn, rfl⟩⟩
  · intro f bs
    constructor
    · rintro (⟨_, _, _, _, _, _, _, _, hno⟩ | ⟨_, hno⟩)
      · exact hno
      · exact hno
    · intro hno
      exact hno.elim

theorem ofNumber_number (t : GgufType) : GgufType.ofNumber t.number = some t := by
  cases t <;> rfl

theorem number_of_ofNumber (h : GgufType.ofNumber n = some t) : n = t.number := by
  unfold GgufType.ofNumber at h
  split at h <;> cases h <;> rfl

theorem number_lt (t : GgufType) : t.number < 2 ^ 32 := by
  cases t <;> decide

theorem number_ne_array (t : GgufType) : t.number ≠ arrayNumber := by
  cases t <;> decide

theorem spec_readArrayValue (type n : Nat) :
    Spec (readArrayValue mem type n) (fun enc v => ∃ t values, type = GgufType.number t ∧
      mem (t.vectorBytes n) = true ∧ Many (ValueEnc mem t) enc values ∧ values.length = n ∧
      v = .array t values) NoFault := by
  unfold readArrayValue
  cases ht : GgufType.ofNumber type with
  | none =>
    refine spec_null.congr ?_ fun _ _ => Iff.rfl
    intro enc v
    refine ⟨fun h => h.elim, ?_⟩
    rintro ⟨t, _, rfl, _⟩
    rw [ofNumber_number] at ht
    cases ht
  | some t =>
    refine ((spec_readArray t n).map fun values => KvValue.array t values).congr ?_ fun _ _ => Iff.rfl
    intro enc v
    constructor
    · rintro ⟨values, ⟨hmem, hmany, hn⟩, rfl⟩
      exact ⟨t, values, number_of_ofNumber ht, hmem, hmany, hn, rfl⟩
    · rintro ⟨t', values, rfl, hmem, hmany, hn, rfl⟩
      rw [ofNumber_number] at ht
      cases ht
      exact ⟨values, ⟨hmem, hmany, hn⟩, rfl⟩

theorem spec_readScalarValue (type : Nat) :
    Spec (readScalarValue mem type)
      (fun enc v => ∃ t value, type = GgufType.number t ∧ ValueEnc mem t enc value ∧
        v = .scalar t value)
      (fun f bs => f = .uncaughtException ∧ type = GgufType.string.number ∧ TooLong mem bs) := by
  unfold readScalarValue
  cases ht : GgufType.ofNumber type with
  | none =>
    refine spec_null.congr ?_ ?_
    · intro enc v
      refine ⟨fun h => h.elim, ?_⟩
      rintro ⟨t, _, rfl, _⟩
      rw [ofNumber_number] at ht
      cases ht
    · intro f bs
      refine ⟨fun h => h.elim, ?_⟩
      rintro ⟨_, rfl, _⟩
      rw [ofNumber_number] at ht
      cases ht
  | some t =>
    have htype := number_of_ofNumber ht
    refine ((spec_readValue (spec_crash _) t).map fun value => KvValue.scalar t value).congr ?_ ?_
    · intro enc v
      constructor
      · rintro ⟨value, hvalue, rfl⟩
        exact ⟨t, value, htype, hvalue, rfl⟩
      · rintro ⟨t', value, rfl, hvalue, rfl⟩
        rw [ofNumber_number] at ht
        cases ht
        exact ⟨value, hvalue, rfl⟩
    · intro f bs
      constructor
      · rintro ⟨rfl, size, rest, rfl, hsize, hmem, rfl⟩
        exact ⟨rfl, htype, size, rest, rfl, hsize, hmem⟩
      · rintro ⟨rfl, rfl, size, rest, rfl, hsize, hmem⟩
        rw [ofNumber_number] at ht
        cases ht
        exact ⟨rfl, size, rest, rfl, hsize, hmem, rfl⟩

theorem spec_readKvValue :
    Spec (readKvValue mem) (KvValueEnc mem)
      (fun f bs => f = .uncaughtException ∧ HugeScalar mem bs) := by
  refine ((spec_number 4).bind fun type => Spec.ite
    (fun _ => (spec_number 4).bind fun type => (spec_number 8).bind fun n =>
      spec_readArrayValue type n)
    (fun _ => spec_readScalarValue type)).congr ?_ ?_
  · intro enc v
    constructor
    · rintro ⟨type, _, enc, rfl, ⟨rfl, _⟩,
        ⟨rfl, _, _, _, rfl, ⟨rfl, _⟩, n, _, enc, rfl, ⟨rfl, hn⟩, t, values, rfl, hmem, hmany, rfl,
          rfl⟩ | ⟨_, t, value, rfl, hvalue, rfl⟩⟩
      · exact .array hmem hn hmany
      · exact .scalar hvalue
    · intro h
      cases h with
      | @scalar t enc value hvalue =>
        exact ⟨t.number, _, _, rfl, ⟨rfl, number_lt t⟩,
          .inr ⟨number_ne_array t, t, value, rfl, hvalue, rfl⟩⟩
      | @array t enc values hmem hlen hvalues =>
        exact ⟨arrayNumber, _, _, rfl, ⟨rfl, by decide⟩, .inl ⟨rfl, t.number, _, _, rfl,
          ⟨rfl, number_lt t⟩, values.length, _, _, rfl, ⟨rfl, hlen⟩, t, values, rfl, hmem, hvalues,
          rfl, rfl⟩⟩
  · intro f bs
    constructor
    · rintro (hno | ⟨type, _, rest, rfl, ⟨rfl, _⟩, ⟨_, hno | ⟨_, _, _, _, _,
        hno | ⟨_, _, _, _, _, hno⟩⟩⟩ | ⟨_, rfl, rfl, hlong⟩⟩)
      · exact hno.elim
      · exact hno.elim
      · exact hno.elim
      · exact hno.elim
      · exact ⟨rfl, rest, rfl, hlong⟩
    · rintro ⟨rfl, rest, rfl, hlong⟩
      exact .inr ⟨_, _, rest, rfl, ⟨rfl, number_lt .string⟩,
        .inr ⟨number_ne_array .string, rfl, rfl, hlong⟩⟩

theorem spec_readKv (kvs : Kvs) :
    Spec (readKv mem kvs) (KvStep mem kvs) (KvFault mem kvs) := by
  have hplace (key : Bytes) (value : KvValue) :
      Spec (emplaceBack kvs key value) (fun enc kvs' => key ≠ [] ∧ enc = [] ∧
        kvs' = kvs ++ [(key, value)]) (fun f _ => key = [] ∧ f = .emptyKey) := by
    refine (Spec.ite (fun _ => spec_crash _) (fun _ => spec_pure _)).congr ?_ ?_
    · intro enc kvs'
      constructor
      · rintro (⟨_, hno⟩ | h)
        · exact hno.elim
        · exact h
      · exact .inr
    · intro f bs
      constructor
      · rintro (h | ⟨_, hno⟩)
        · exact h
        · exact hno.elim
      · exact .inl
  refine (spec_readKey.bind fun key => Spec.ite (fun _ => spec_null) (fun _ =>
    spec_readKvValue.bind fun value => hplace key value)).congr ?_ ?_
  · intro enc kvs'
    constructor
    · rintro ⟨key, keyEnc, _, rfl, hkey, ⟨_, hno⟩ | ⟨hfresh, value, valueEnc, _, rfl, hvalue, hne,
        rfl, rfl⟩⟩
      · exact hno.elim
      · rw [List.contains_iff_mem] at hfresh
        rw [List.append_nil]
        exact ⟨key, value, keyEnc, valueEnc, rfl, hkey, hfresh, hvalue, hne, rfl⟩
    · rintro ⟨key, value, keyEnc, valueEnc, rfl, hkey, hfresh, hvalue, hne, rfl⟩
      rw [← List.contains_iff_mem] at hfresh
      exact ⟨key, keyEnc, valueEnc, rfl, hkey, .inr ⟨hfresh, value, valueEnc, [],
        (List.append_nil _).symm, hvalue, hne, rfl, rfl⟩⟩
  · intro f bs
    constructor
    · rintro (hno | ⟨key, keyEnc, rest, rfl, hkey, ⟨_, hno⟩ | ⟨hfresh,
        ⟨rfl, hhuge⟩ | ⟨value, valueEnc, rest, rfl, hvalue, rfl, rfl⟩⟩⟩)
      · exact hno.elim
      · exact hno.elim
      · rw [List.contains_iff_mem] at hfresh
        exact .huge hkey hfresh hhuge
      · rw [List.contains_iff_mem] at hfresh
        exact .empty hkey hfresh hvalue rest
    · intro h
      cases h with
      | huge hkey hfresh hvalue =>
        rw [← List.contains_iff_mem] at hfresh
        exact .inr ⟨_, _, _, rfl, hkey, .inr ⟨hfresh, .inl ⟨rfl, hvalue⟩⟩⟩
      | empty hkey hfresh hvalue rest =>
        rw [← List.contains_iff_mem] at hfresh
        exact .inr ⟨_, _, _, rfl, hkey, .inr ⟨hfresh, .inr ⟨_, _, rest, rfl, hvalue, rfl, rfl⟩⟩⟩

end Values

section Alignment

/-- The alignment is there, and it is not one value of its type. -/
def AlignmentFault (kvs : Kvs) : Prop :=
  ∃ kv, findKey kvs generalAlignment = some kv ∧ kv.2.valU32 = none

theorem spec_readAlignmentValue (value : KvValue) :
    Spec (readAlignmentValue value)
      (fun enc a => enc = [] ∧ (value.valU32.filter validAlignment).map UInt32.toNat = some a)
      (fun f _ => f = .alignmentValue ∧ value.valU32 = none) := by
  unfold readAlignmentValue
  cases value.valU32 with
  | none =>
    refine (spec_crash _).congr ?_ ?_
    · intro enc a
      exact ⟨fun h => h.elim, fun ⟨_, h⟩ => (nomatch h)⟩
    · intro f bs
      exact (and_iff_left rfl).symm
  | some v =>
    rw [Option.filter_some]
    refine (Spec.ite (fun _ => spec_pure v.toNat) (fun _ => spec_null)).congr ?_ ?_
    · intro enc a
      constructor
      · rintro (⟨hv, rfl, rfl⟩ | ⟨_, hno⟩)
        · rw [if_pos hv]
          exact ⟨rfl, rfl⟩
        · exact hno.elim
      · rintro ⟨rfl, ha⟩
        split at ha
        case isTrue hv => exact .inl ⟨hv, rfl, (Option.some.inj ha).symm⟩
        case isFalse => cases ha
    · intro f bs
      constructor
      · rintro (⟨_, hno⟩ | ⟨_, hno⟩)
        · exact hno.elim
        · exact hno.elim
      · rintro ⟨_, h⟩
        cases h

theorem spec_readAlignment (kvs : Kvs) :
    Spec (readAlignment kvs) (fun enc a => enc = [] ∧ alignment? kvs = some a)
      (fun f _ => f = .alignmentValue ∧ AlignmentFault kvs) := by
  unfold readAlignment alignment? AlignmentFault
  cases findKey kvs generalAlignment with
  | none =>
    refine (spec_pure _).congr ?_ ?_
    · intro enc a
      exact and_congr_right fun _ => ⟨fun h => congrArg some h.symm, fun h => (Option.some.inj h).symm⟩
    · intro f bs
      exact ⟨fun h => h.elim, fun ⟨_, _, h, _⟩ => (nomatch h)⟩
  | some kv =>
    refine (spec_readAlignmentValue kv.2).congr (fun _ _ => Iff.rfl) ?_
    intro f bs
    constructor
    · rintro ⟨rfl, hnone⟩
      exact ⟨rfl, kv, rfl, hnone⟩
    · rintro ⟨rfl, kv', hkv', hnone⟩
      cases hkv'
      exact ⟨rfl, hnone⟩

end Alignment

section Infos
variable {mem : Memory}

/-- A dimension of the tensor, or one past the last. -/
def DimEnc (nDims j : Nat) (enc : Bytes) (ne : Nat) : Prop :=
  if j < nDims then enc = leBytes 8 ne ∧ ne < 2 ^ 63 else enc = [] ∧ ne = 1

theorem spec_readDim (nDims j : Nat) : Spec (readDim nDims j) (DimEnc nDims j) NoFault := by
  unfold readDim DimEnc
  by_cases hj : j < nDims
  · simp only [if_pos hj]
    refine ((spec_number 8).bind fun ne =>
      Spec.ite (fun _ => spec_null) (fun _ => spec_pure ne)).congr ?_ ?_
    · intro enc ne
      constructor
      · rintro ⟨ne, _, enc, rfl, ⟨rfl, _⟩, ⟨_, hno⟩ | ⟨hlt, rfl, rfl⟩⟩
        · exact hno.elim
        · rw [List.append_nil]
          exact ⟨rfl, Nat.lt_of_not_le hlt⟩
      · rintro ⟨rfl, hlt⟩
        exact ⟨ne, _, [], (List.append_nil _).symm, ⟨rfl, Nat.lt_trans hlt (by decide)⟩,
          .inr ⟨Nat.not_le_of_lt hlt, rfl, rfl⟩⟩
    · intro f bs
      constructor
      · rintro (hno | ⟨_, _, _, _, _, ⟨_, hno⟩ | ⟨_, hno⟩⟩)
        · exact hno
        · exact hno
        · exact hno
      · intro hno
        exact hno.elim
  · simp only [if_neg hj]
    exact spec_pure 1

/-- The number of elements stays below the limit. -/
def FewElements (ne0 ne1 ne2 ne3 : Nat) : Prop :=
  ne0 < maxInt64 / ne1 ∧ ne0 * ne1 < maxInt64 / ne2 ∧ ne0 * ne1 * ne2 < maxInt64 / ne3

instance (ne0 ne1 ne2 ne3 : Nat) : Decidable (FewElements ne0 ne1 ne2 ne3) :=
  inferInstanceAs (Decidable (_ ∧ _))

/-- A dimension is zero, and the checks before its turn pass. -/
def ZeroDim (ne0 ne1 ne2 ne3 : Nat) : Prop :=
  ne1 = 0 ∨ ne0 < maxInt64 / ne1 ∧ (ne2 = 0 ∨ ne0 * ne1 < maxInt64 / ne2 ∧ ne3 = 0)

def Shape.Is (shape : Shape) (ne0 ne1 ne2 ne3 : Nat) : Prop :=
  shape.ne0 = ne0 ∧ shape.ne1 = ne1 ∧ shape.ne2 = ne2 ∧ shape.ne3 = ne3

theorem spec_checkElements (ne0 ne1 ne2 ne3 : Nat) :
    Spec (checkElements ne0 ne1 ne2 ne3)
      (fun enc shape => enc = [] ∧ shape.Is ne0 ne1 ne2 ne3 ∧ FewElements ne0 ne1 ne2 ne3)
      (fun f _ => f = .divisionByZero ∧ ZeroDim ne0 ne1 ne2 ne3) := by
  unfold checkElements
  have hpure (h1 : 0 < ne1) (h2 : 0 < ne2) (h3 : 0 < ne3) :
      Spec (pure ⟨ne0, ne1, ne2, ne3, h1, h2, h3⟩ : Reader Fault Shape)
        (fun enc shape => enc = [] ∧ shape.Is ne0 ne1 ne2 ne3) NoFault := by
    refine (spec_pure _).congr ?_ fun _ _ => Iff.rfl
    intro enc shape
    constructor
    · rintro ⟨rfl, rfl⟩
      exact ⟨rfl, rfl, rfl, rfl, rfl⟩
    · rintro ⟨rfl, rfl, rfl, rfl, rfl⟩
      exact ⟨rfl, rfl⟩
  have hpos {n k : Nat} (h : k < maxInt64 / n) : n ≠ 0 := by
    rintro rfl
    rw [Nat.div_zero] at h
    cases h
  refine (Spec.check _ fun h1 => Spec.guard fun _ => Spec.check _ fun h2 => Spec.guard fun _ =>
    Spec.check _ fun h3 => Spec.guard fun _ => hpure (Nat.pos_of_ne_zero h1)
      (Nat.pos_of_ne_zero h2) (Nat.pos_of_ne_zero h3)).congr ?_ ?_
  · intro enc shape
    constructor
    · rintro ⟨_, hn1, _, hn2, _, hn3, henc, hshape⟩
      exact ⟨henc, hshape, Nat.lt_of_not_le hn1, Nat.lt_of_not_le hn2, Nat.lt_of_not_le hn3⟩
    · rintro ⟨henc, hshape, hn1, hn2, hn3⟩
      exact ⟨hpos hn1, Nat.not_le_of_lt hn1, hpos hn2, Nat.not_le_of_lt hn2, hpos hn3,
        Nat.not_le_of_lt hn3, henc, hshape⟩
  · intro f bs
    constructor
    · rintro (⟨h1, rfl⟩ | ⟨_, hn1, ⟨h2, rfl⟩ | ⟨_, hn2, ⟨h3, rfl⟩ | ⟨_, _, hno⟩⟩⟩)
      · exact ⟨rfl, .inl h1⟩
      · exact ⟨rfl, .inr ⟨Nat.lt_of_not_le hn1, .inl h2⟩⟩
      · exact ⟨rfl, .inr ⟨Nat.lt_of_not_le hn1, .inr ⟨Nat.lt_of_not_le hn2, h3⟩⟩⟩
      · exact hno.elim
    · rintro ⟨rfl, h1 | ⟨hn1, h2 | ⟨hn2, h3⟩⟩⟩
      · exact .inl ⟨h1, rfl⟩
      · exact .inr ⟨hpos hn1, Nat.not_le_of_lt hn1, .inl ⟨h2, rfl⟩⟩
      · exact .inr ⟨hpos hn1, Nat.not_le_of_lt hn1, .inr ⟨hpos hn2, Nat.not_le_of_lt hn2,
          .inl ⟨h3, rfl⟩⟩⟩

/-- The dimensions of a tensor, and what the check of its elements leaves. -/
def ShapeEnc (nDims : Nat) (enc : Bytes) (shape : Shape) : Prop :=
  ∃ e0 e1 e2 e3, enc = e0 ++ (e1 ++ (e2 ++ e3)) ∧ DimEnc nDims 0 e0 shape.ne0 ∧
    DimEnc nDims 1 e1 shape.ne1 ∧ DimEnc nDims 2 e2 shape.ne2 ∧ DimEnc nDims 3 e3 shape.ne3 ∧
    FewElements shape.ne0 shape.ne1 shape.ne2 shape.ne3

/-- Dimensions with a zero to divide by. -/
def ShapeFault (nDims : Nat) (bs : Bytes) : Prop :=
  ∃ ne0 ne1 ne2 ne3 e0 e1 e2 e3 rest, bs = e0 ++ (e1 ++ (e2 ++ (e3 ++ rest))) ∧
    DimEnc nDims 0 e0 ne0 ∧ DimEnc nDims 1 e1 ne1 ∧ DimEnc nDims 2 e2 ne2 ∧
    DimEnc nDims 3 e3 ne3 ∧ ZeroDim ne0 ne1 ne2 ne3

theorem spec_readShape (nDims : Nat) :
    Spec (readShape nDims) (ShapeEnc nDims)
      (fun f bs => f = .divisionByZero ∧ ShapeFault nDims bs) := by
  refine ((spec_readDim nDims 0).bind fun ne0 => (spec_readDim nDims 1).bind fun ne1 =>
    (spec_readDim nDims 2).bind fun ne2 => (spec_readDim nDims 3).bind fun ne3 =>
      spec_checkElements ne0 ne1 ne2 ne3).congr ?_ ?_
  · intro enc shape
    constructor
    · rintro ⟨_, e0, _, rfl, h0, _, e1, _, rfl, h1, _, e2, _, rfl, h2, _, e3, _, rfl, h3, rfl,
        ⟨rfl, rfl, rfl, rfl⟩, hfew⟩
      rw [List.append_nil]
      exact ⟨e0, e1, e2, e3, rfl, h0, h1, h2, h3, hfew⟩
    · rintro ⟨e0, e1, e2, e3, rfl, h0, h1, h2, h3, hfew⟩
      exact ⟨_, e0, _, rfl, h0, _, e1, _, rfl, h1, _, e2, _, rfl, h2, _, e3, [],
        (List.append_nil _).symm, h3, rfl, ⟨rfl, rfl, rfl, rfl⟩, hfew⟩
  · intro f bs
    constructor
    · rintro (hno | ⟨_, e0, _, rfl, h0, hno | ⟨_, e1, _, rfl, h1, hno | ⟨_, e2, _, rfl, h2,
        hno | ⟨_, e3, rest, rfl, h3, rfl, hzero⟩⟩⟩⟩)
      · exact hno.elim
      · exact hno.elim
      · exact hno.elim
      · exact hno.elim
      · exact ⟨rfl, _, _, _, _, e0, e1, e2, e3, rest, rfl, h0, h1, h2, h3, hzero⟩
    · rintro ⟨rfl, ne0, ne1, ne2, ne3, e0, e1, e2, e3, rest, rfl, h0, h1, h2, h3, hzero⟩
      exact .inr ⟨_, e0, _, rfl, h0, .inr ⟨_, e1, _, rfl, h1, .inr ⟨_, e2, _, rfl, h2,
        .inr ⟨_, e3, rest, rfl, h3, rfl, hzero⟩⟩⟩⟩

/-- The number of a type; rows of whole blocks. -/
def TypeEnc (ne0 : Nat) (enc : Bytes) (t : GgmlType) : Prop :=
  ∃ number, enc = leBytes 4 number ∧ number < 2 ^ 32 ∧ GgmlType.all[number]? = some t ∧
    t.blckSize ≠ 0 ∧ ne0 % t.blckSize = 0

theorem spec_readType (ne0 : Nat) : Spec (readType ne0) (TypeEnc ne0) NoFault := by
  have hknown (number : Nat) : Spec (knownType ne0 number)
      (fun enc t => enc = [] ∧ GgmlType.all[number]? = some t ∧ t.blckSize ≠ 0 ∧
        ne0 % t.blckSize = 0) NoFault := by
    unfold knownType
    cases GgmlType.all[number]? with
    | none =>
      refine spec_null.congr ?_ fun _ _ => Iff.rfl
      intro enc t
      exact ⟨fun h => h.elim, fun ⟨_, h, _⟩ => (nomatch h)⟩
    | some t =>
      refine (Spec.guard fun _ => spec_pure t).congr ?_ ?_
      · intro enc t'
        constructor
        · rintro ⟨hblocks, rfl, rfl⟩
          rw [not_or, not_not] at hblocks
          exact ⟨rfl, rfl, hblocks⟩
        · rintro ⟨rfl, ht, hblocks⟩
          cases ht
          rw [not_or, not_not]
          exact ⟨hblocks, rfl, rfl⟩
      · intro f bs
        exact ⟨fun h => h.2, fun h => h.elim⟩
  refine ((spec_number 4).bind fun number => hknown number).congr ?_ ?_
  · intro enc t
    constructor
    · rintro ⟨number, _, _, rfl, ⟨rfl, hlt⟩, rfl, ht, hblocks⟩
      rw [List.append_nil]
      exact ⟨number, rfl, hlt, ht, hblocks⟩
    · rintro ⟨number, rfl, hlt, ht, hblocks⟩
      exact ⟨number, _, [], (List.append_nil _).symm, ⟨rfl, hlt⟩, rfl, ht, hblocks⟩
  · intro f bs
    exact ⟨fun h => h.elim id fun ⟨_, _, _, _, _, h⟩ => h, .inl⟩

/-- The encodings of an info behind others: its name is short and new. -/
def InfoStep (mem : Memory) (infos : Infos) (enc : Bytes) (infos' : Infos) : Prop :=
  ∃ name nDims shape type offset nameEnc shapeEnc typeEnc,
    enc = nameEnc ++ (leBytes 4 nDims ++ (shapeEnc ++ (typeEnc ++ leBytes 8 offset))) ∧
    StringEnc mem nameEnc name ∧ name.length < maxName ∧ cStr name ∉ infos.map (·.1.name) ∧
    nDims ≤ maxDims ∧ ShapeEnc nDims shapeEnc shape ∧ TypeEnc shape.ne0 typeEnc type ∧
    offset < 2 ^ 64 ∧ infos' = infos ++ [(shape.info (cStr name) type, offset)]

/-- An info behind others whose dimensions are at fault. -/
def InfoFault (mem : Memory) (infos : Infos) (bs : Bytes) : Prop :=
  ∃ name nDims nameEnc rest, bs = nameEnc ++ (leBytes 4 nDims ++ rest) ∧
    StringEnc mem nameEnc name ∧ name.length < maxName ∧ cStr name ∉ infos.map (·.1.name) ∧
    nDims ≤ maxDims ∧ ShapeFault nDims rest

theorem spec_readTensorInfo (infos : Infos) :
    Spec (readTensorInfo mem infos) (InfoStep mem infos)
      (fun f bs => f = .divisionByZero ∧ InfoFault mem infos bs) := by
  refine (spec_readKey.bind fun name => Spec.guard fun _ => Spec.guard fun _ =>
    (spec_number 4).bind fun nDims => Spec.guard fun _ => (spec_readShape nDims).bind fun shape =>
      (spec_readType shape.ne0).bind fun type => (spec_number 8).map fun offset =>
        infos ++ [(shape.info (cStr name) type, offset)]).congr ?_ ?_
  · intro enc infos'
    constructor
    · rintro ⟨name, nameEnc, _, rfl, hname, hshort, hnew, nDims, _, _, rfl, ⟨rfl, _⟩, hdims, shape,
        shapeEnc, _, rfl, hshape, type, typeEnc, _, rfl, htype, offset, ⟨rfl, hoffset⟩, rfl⟩
      rw [List.contains_iff_mem] at hnew
      exact ⟨name, nDims, shape, type, offset, nameEnc, shapeEnc, typeEnc, rfl, hname,
        Nat.lt_of_not_le hshort, hnew, Nat.le_of_not_lt hdims, hshape, htype, hoffset, rfl⟩
    · rintro ⟨name, nDims, shape, type, offset, nameEnc, shapeEnc, typeEnc, rfl, hname, hshort,
        hnew, hdims, hshape, htype, hoffset, rfl⟩
      rw [← List.contains_iff_mem] at hnew
      exact ⟨name, nameEnc, _, rfl, hname, Nat.not_le_of_lt hshort, hnew, nDims, _, _, rfl,
        ⟨rfl, Nat.lt_of_le_of_lt hdims (by decide)⟩, Nat.not_lt_of_le hdims, shape, shapeEnc, _,
        rfl, hshape, type, typeEnc, _, rfl, htype, offset, ⟨rfl, hoffset⟩, rfl⟩
  · intro f bs
    constructor
    · rintro (hno | ⟨name, nameEnc, _, rfl, hname, hshort, hnew, hno | ⟨nDims, _, _, rfl, ⟨rfl, _⟩,
        hdims, ⟨rfl, hfault⟩ | ⟨_, _, _, rfl, _, hno | ⟨_, _, _, rfl, _, hno⟩⟩⟩⟩)
      · exact hno.elim
      · exact hno.elim
      · rw [List.contains_iff_mem] at hnew
        exact ⟨rfl, name, nDims, nameEnc, _, rfl, hname, Nat.lt_of_not_le hshort, hnew,
          Nat.le_of_not_lt hdims, hfault⟩
      · exact hno.elim
      · exact hno.elim
    · rintro ⟨rfl, name, nDims, nameEnc, rest, rfl, hname, hshort, hnew, hdims, hfault⟩
      rw [← List.contains_iff_mem] at hnew
      exact .inr ⟨name, nameEnc, _, rfl, hname, Nat.not_le_of_lt hshort, hnew, .inr ⟨nDims, _, _,
        rfl, ⟨rfl, Nat.lt_of_le_of_lt hdims (by decide)⟩, Nat.not_lt_of_le hdims,
        .inl ⟨rfl, hfault⟩⟩⟩

end Infos

section Metadata
variable {mem : Memory}

/-- The encodings of a header. -/
def HeaderEnc (enc : Bytes) (header : Header) : Prop :=
  enc = ggufMagic ++ (leBytes 4 header.version ++ (leBytes 8 header.nTensors ++
    leBytes 8 header.nKv)) ∧ (header.version = 2 ∨ header.version = 3) ∧
    header.nTensors ≤ (2 ^ 64 - 1) / sizeofTensorInfo ∧ header.nKv ≤ (2 ^ 64 - 1) / sizeofKv

theorem spec_readHeader : Spec readHeader HeaderEnc NoFault := by
  refine ((spec_bytes 4).bind fun magic => Spec.guard fun _ => (spec_number 4).bind fun version =>
    Spec.guard fun _ => (spec_number 8).bind fun nTensors => Spec.guard fun _ =>
      (spec_number 8).bind fun nKv => Spec.guard fun _ =>
        spec_pure (⟨version, nTensors, nKv⟩ : Header)).congr ?_ ?_
  · intro enc header
    constructor
    · rintro ⟨_, _, _, rfl, ⟨rfl, _⟩, hmagic, version, _, _, rfl, ⟨rfl, _⟩, hversion, nTensors, _,
        _, rfl, ⟨rfl, _⟩, hT, nKv, _, _, rfl, ⟨rfl, _⟩, hK, rfl, rfl⟩
      rw [not_not] at hmagic
      subst hmagic
      rw [List.append_nil]
      refine ⟨rfl, ?_, Nat.le_of_not_lt hT, Nat.le_of_not_lt hK⟩
      simp only [ggufVersion] at hversion
      change version = 2 ∨ version = 3
      omega
    · rintro ⟨rfl, hversion, hT, hK⟩
      refine ⟨_, _, _, rfl, ⟨rfl, by decide⟩, not_not.2 rfl, header.version, _, _, rfl,
        ⟨rfl, by omega⟩, ?_, header.nTensors, _, _, rfl, ⟨rfl, Nat.lt_of_le_of_lt hT (by decide)⟩,
        Nat.not_lt_of_le hT, header.nKv, _, [], (List.append_nil _).symm,
        ⟨rfl, Nat.lt_of_le_of_lt hK (by decide)⟩, Nat.not_lt_of_le hK, rfl, rfl⟩
      simp only [ggufVersion]
      omega
  · intro f bs
    constructor
    · rintro (hno | ⟨_, _, _, rfl, _, _, hno | ⟨_, _, _, rfl, _, _, hno | ⟨_, _, _, rfl, _, _,
        hno | ⟨_, _, _, rfl, _, _, hno⟩⟩⟩⟩)
      · exact hno
      · exact hno
      · exact hno
      · exact hno
      · exact hno
    · intro hno
      exact hno.elim

/-- The encodings of the metadata, up to the padding. -/
def MetaEnc (mem : Memory) (enc : Bytes) (m : Meta) : Prop :=
  ∃ header headerEnc kvsEnc infosEnc, enc = headerEnc ++ (kvsEnc ++ infosEnc) ∧
    HeaderEnc headerEnc header ∧ Iter (KvStep mem) header.nKv [] kvsEnc m.kvs ∧
    alignment? m.kvs = some m.alignment ∧
    Iter (InfoStep mem) header.nTensors [] infosEnc m.infos ∧ m.version = header.version

/-- The faults in the metadata. -/
inductive MetaFault (mem : Memory) : Fault → Bytes → Prop where
  | pair (hheader : HeaderEnc headerEnc header) (hlt : k < header.nKv)
      (hkvs : Iter (KvStep mem) k [] kvsEnc kvs) (h : KvFault mem kvs f rest) :
      MetaFault mem f (headerEnc ++ (kvsEnc ++ rest))
  | alignment (hheader : HeaderEnc headerEnc header)
      (hkvs : Iter (KvStep mem) header.nKv [] kvsEnc kvs) (h : AlignmentFault kvs)
      (rest : Bytes) : MetaFault mem .alignmentValue (headerEnc ++ (kvsEnc ++ rest))
  | info (hheader : HeaderEnc headerEnc header)
      (hkvs : Iter (KvStep mem) header.nKv [] kvsEnc kvs) (halignment : alignment? kvs = some a)
      (hlt : k < header.nTensors) (hinfos : Iter (InfoStep mem) k [] infosEnc infos)
      (h : InfoFault mem infos rest) :
      MetaFault mem .divisionByZero (headerEnc ++ (kvsEnc ++ (infosEnc ++ rest)))

theorem spec_readMeta : Spec (readMeta mem) (MetaEnc mem) (MetaFault mem) := by
  refine (spec_readHeader.bind fun header => (Spec.loop spec_readKv header.nKv []).bind fun kvs =>
    (spec_readAlignment kvs).bind fun alignment =>
      (Spec.loop spec_readTensorInfo header.nTensors []).map fun infos =>
        (⟨header.version, kvs, alignment, infos⟩ : Meta)).congr ?_ ?_
  · intro enc m
    constructor
    · rintro ⟨header, headerEnc, _, rfl, hheader, kvs, kvsEnc, _, rfl, hkvs, alignment, _, infosEnc,
        rfl, ⟨rfl, halignment⟩, infos, hinfos, rfl⟩
      exact ⟨header, headerEnc, kvsEnc, infosEnc, rfl, hheader, hkvs, halignment, hinfos, rfl⟩
    · rintro ⟨header, headerEnc, kvsEnc, infosEnc, rfl, hheader, hkvs, halignment, hinfos, hversion⟩
      obtain ⟨version, kvs, alignment, infos⟩ := m
      cases hversion
      exact ⟨header, headerEnc, _, rfl, hheader, kvs, kvsEnc, _, rfl, hkvs, alignment, [], infosEnc,
        rfl, ⟨rfl, halignment⟩, infos, hinfos, rfl⟩
  · intro f bs
    constructor
    · rintro (hno | ⟨header, headerEnc, _, rfl, hheader, ⟨k, hk, kvs, kvsEnc, rest, rfl, hkvs, hF⟩ |
        ⟨kvs, kvsEnc, _, rfl, hkvs, ⟨rfl, hF⟩ | ⟨alignment, _, _, rfl, ⟨rfl, halignment⟩, k, hk,
          infos, infosEnc, rest, rfl, hinfos, rfl, hF⟩⟩⟩)
      · exact hno.elim
      · exact .pair hheader hk hkvs hF
      · exact .alignment hheader hkvs hF _
      · change MetaFault mem _ (headerEnc ++ (kvsEnc ++ (infosEnc ++ rest)))
        exact .info hheader hkvs halignment hk hinfos hF
    · intro h
      cases h with
      | pair hheader hlt hkvs h =>
        exact .inr ⟨_, _, _, rfl, hheader, .inl ⟨_, hlt, _, _, _, rfl, hkvs, h⟩⟩
      | alignment hheader hkvs h rest =>
        exact .inr ⟨_, _, _, rfl, hheader, .inr ⟨_, _, rest, rfl, hkvs, .inl ⟨rfl, h⟩⟩⟩
      | info hheader hkvs halignment hlt hinfos h =>
        exact .inr ⟨_, _, _, rfl, hheader, .inr ⟨_, _, _, rfl, hkvs, .inr ⟨_, [], _, rfl,
          ⟨rfl, halignment⟩, _, hlt, _, _, _, rfl, hinfos, rfl, h⟩⟩⟩

end Metadata

end ActQuant.Gguf
