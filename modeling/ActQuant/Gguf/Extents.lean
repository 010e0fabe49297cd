import ActQuant.Gguf.ReaderSpec

namespace ActQuant.Gguf
open ActQuant.Lib ActQuant.Quant ActQuant.Lib.Reader

section Sizes
variable (t : TensorInfo)

/-- The strides as unbounded integers. -/
def TensorInfo.stride1 : Nat := t.type.traits.typeSize * (t.ne0 / t.type.blckSize)
def TensorInfo.stride2 : Nat := t.stride1 * t.ne1
def TensorInfo.stride3 : Nat := t.stride2 * t.ne2

def TensorInfo.elements : Nat := t.ne0 * t.ne1 * t.ne2 * t.ne3

/-- The bytes of a tensor as an unbounded integer. -/
def TensorInfo.extent : Nat := t.elements / t.type.blckSize * t.type.traits.typeSize

/-- The sums of `ggml_nbytes`, from a first one on. -/
def TensorInfo.nbytesSums (first : Nat) : List Nat :=
  let sum1 := first + (t.ne1 - 1) * t.stride1
  let sum2 := sum1 + (t.ne2 - 1) * t.stride2
  let sum3 := sum2 + (t.ne3 - 1) * t.stride3
  [first, (t.ne1 - 1) * t.stride1, sum1, (t.ne2 - 1) * t.stride2, sum2, (t.ne3 - 1) * t.stride3, sum3]

def TensorInfo.nbytesResults : List Nat :=
  if t.ne0 = 0 then []
  else if t.type.blckSize = 1 then
    (t.ne0 - 1) * t.type.traits.typeSize ::
      t.nbytesSums (t.type.traits.typeSize + (t.ne0 - 1) * t.type.traits.typeSize)
  else
    t.ne0 * t.type.traits.typeSize ::
      t.nbytesSums (t.ne0 * t.type.traits.typeSize / t.type.blckSize)

/-- All that is computed for a tensor, as unbounded integers: the strides, the products and sums of
`ggml_nbytes`, and the sum in `GGML_PAD`. -/
def TensorInfo.results (alignment : Nat) : List Nat :=
  [t.stride1, t.stride2, t.stride3] ++ t.nbytesResults ++ [t.extent + alignment]

/-- The rows before the division by the block size, and the padded tensor, are below `2 ^ 64`. -/
def TensorInfo.Fits (alignment : Nat) : Prop :=
  t.ne0 * t.type.traits.typeSize < 2 ^ 64 ∧ t.extent + alignment < 2 ^ 64

end Sizes

section Unbounded
variable {t : TensorInfo}

theorem add_pred_mul (s : Nat) (h : 0 < n) : s + (n - 1) * s = s * n := by
  obtain ⟨k, rfl⟩ := Nat.exists_eq_succ_of_ne_zero (Nat.pos_iff_ne_zero.1 h)
  rw [Nat.succ_sub_one, Nat.mul_succ, Nat.mul_comm s, Nat.add_comm]

theorem TensorInfo.extent_eq (h : t.WholeBlocks) : t.extent = t.stride3 * t.ne3 := by
  obtain ⟨hpos, k, hk⟩ := h
  have hrow : t.ne0 / t.type.blckSize = k := by
    rw [hk, Nat.mul_div_cancel_left k hpos]
  have hall : t.elements / t.type.blckSize = k * t.ne1 * t.ne2 * t.ne3 := by
    rw [elements, hk, Nat.mul_assoc _ k, Nat.mul_assoc _ (k * _), Nat.mul_assoc _ (k * _ * _),
      Nat.mul_div_cancel_left _ hpos]
  rw [extent, hall, stride3, stride2, stride1, hrow, Nat.mul_comm]
  simp only [Nat.mul_assoc]

/-- The bytes of a row, as both branches of `ggml_nbytes` start from them. -/
theorem TensorInfo.row_of_elements (hb : t.type.blckSize = 1) (hne : t.ne0 ≠ 0) :
    t.type.traits.typeSize + (t.ne0 - 1) * t.type.traits.typeSize = t.stride1 := by
  rw [add_pred_mul _ (Nat.pos_of_ne_zero hne), stride1, hb, Nat.div_one]

theorem TensorInfo.row_of_blocks (h : t.WholeBlocks) :
    t.ne0 * t.type.traits.typeSize / t.type.blckSize = t.stride1 := by
  rw [stride1, Nat.mul_comm, Nat.mul_div_assoc _ h.2]

theorem TensorInfo.stride1_add : t.stride1 + (t.ne1 - 1) * t.stride1 = t.stride2 :=
  add_pred_mul _ t.ne1_pos

theorem TensorInfo.stride2_add : t.stride2 + (t.ne2 - 1) * t.stride2 = t.stride3 :=
  add_pred_mul _ t.ne2_pos

theorem TensorInfo.stride3_add (h : t.WholeBlocks) :
    t.stride3 + (t.ne3 - 1) * t.stride3 = t.extent := by
  rw [add_pred_mul _ t.ne3_pos, extent_eq h]

theorem TensorInfo.nbytesSums_row (h : t.WholeBlocks) :
    t.nbytesSums t.stride1 = [t.stride1, (t.ne1 - 1) * t.stride1, t.stride2,
      (t.ne2 - 1) * t.stride2, t.stride3, (t.ne3 - 1) * t.stride3, t.extent] := by
  rw [nbytesSums, stride1_add, stride2_add, stride3_add h]

theorem TensorInfo.stride1_le : t.stride1 ≤ t.stride2 := Nat.le_mul_of_pos_right _ t.ne1_pos

theorem TensorInfo.stride2_le : t.stride2 ≤ t.stride3 := Nat.le_mul_of_pos_right _ t.ne2_pos

theorem TensorInfo.stride3_le (h : t.WholeBlocks) : t.stride3 ≤ t.extent := by
  rw [extent_eq h]
  exact Nat.le_mul_of_pos_right _ t.ne3_pos

theorem pred_mul_le (s n : Nat) : (n - 1) * s ≤ s * n := by
  rw [Nat.mul_comm s]
  exact Nat.mul_le_mul_right s (Nat.sub_le n 1)

theorem TensorInfo.nbytesSums_le (h : t.WholeBlocks) :
    ∀ n ∈ t.nbytesSums t.stride1, n ≤ t.extent := by
  have h3 := t.stride3_le h
  have h2 := Nat.le_trans t.stride2_le h3
  have h1 := Nat.le_trans t.stride1_le h2
  have hlast : (t.ne3 - 1) * t.stride3 ≤ t.extent := by
    rw [extent_eq h]
    exact pred_mul_le _ _
  rw [nbytesSums_row h]
  simp only [List.forall_mem_cons]
  exact ⟨h1, Nat.le_trans (pred_mul_le _ _) h2, h2, Nat.le_trans (pred_mul_le _ _) h3, h3, hlast,
    Nat.le_refl _, List.forall_mem_nil _⟩

/-- Nothing that is computed for a tensor wraps around, just where the tensor fits. -/
theorem TensorInfo.results_iff_fits (h : t.WholeBlocks) (halignment : 0 < alignment) :
    (∀ n ∈ t.results alignment, n < 2 ^ 64) ↔ t.Fits alignment := by
  have h3 := t.stride3_le h
  have h2 := Nat.le_trans t.stride2_le h3
  have h1 := Nat.le_trans t.stride1_le h2
  have hsums := t.nbytesSums_le h
  rw [results, List.forall_mem_append, List.forall_mem_append]
  simp only [List.forall_mem_cons, List.not_mem_nil, false_imp_iff, implies_true, and_true]
  constructor
  · rintro ⟨⟨_, hresults⟩, hpad⟩
    refine ⟨?_, hpad⟩
    rw [nbytesResults] at hresults
    by_cases hne : t.ne0 = 0
    · rw [hne, Nat.zero_mul]
      decide
    rw [if_neg hne] at hresults
    by_cases hb : t.type.blckSize = 1
    · have hrow := t.row_of_blocks h
      rw [hb, Nat.div_one] at hrow
      rw [hrow]
      omega
    · rw [if_neg hb] at hresults
      exact hresults _ List.mem_cons_self
  · rintro ⟨hrow, hpad⟩
    have hextent : t.extent < 2 ^ 64 := by omega
    refine ⟨⟨⟨by omega, by omega, by omega⟩, ?_⟩, hpad⟩
    rw [nbytesResults]
    by_cases hne : t.ne0 = 0
    · rw [if_pos hne]
      exact List.forall_mem_nil _
    rw [if_neg hne]
    by_cases hb : t.type.blckSize = 1
    · rw [if_pos hb, row_of_elements hb hne, List.forall_mem_cons]
      refine ⟨Nat.lt_of_le_of_lt ?_ hrow, fun n hn => Nat.lt_of_le_of_lt (hsums n hn) hextent⟩
      exact Nat.mul_le_mul_right _ (Nat.sub_le _ _)
    · rw [if_neg hb, row_of_blocks h, List.forall_mem_cons]
      exact ⟨hrow, fun n hn => Nat.lt_of_le_of_lt (hsums n hn) hextent⟩

end Unbounded

section Wrapped
variable {t : TensorInfo}

/-- What the reader computes for a tensor that fits is what it stands for. -/
theorem TensorInfo.strides_of_fits (h : t.WholeBlocks) (hfits : t.Fits alignment) :
    t.nb1 = t.stride1 ∧ t.nb2 = t.stride2 ∧ t.nb3 = t.stride3 := by
  have h3 := t.stride3_le h
  have h2 := Nat.le_trans t.stride2_le h3
  have h1 := Nat.le_trans t.stride1_le h2
  obtain ⟨_, hpad⟩ := hfits
  have hnb1 : t.nb1 = t.stride1 := Nat.mod_eq_of_lt (show t.stride1 < 2 ^ 64 by omega)
  have hnb2 : t.nb2 = t.stride2 := by
    rw [nb2, hnb1]
    exact Nat.mod_eq_of_lt (show t.stride2 < 2 ^ 64 by omega)
  have hnb3 : t.nb3 = t.stride3 := by
    rw [nb3, hnb2]
    exact Nat.mod_eq_of_lt (show t.stride3 < 2 ^ 64 by omega)
  exact ⟨hnb1, hnb2, hnb3⟩

theorem TensorInfo.rest_eq (h : t.WholeBlocks) : t.stride1 + ((t.ne1 - 1) * t.stride1 +
    (t.ne2 - 1) * t.stride2 + (t.ne3 - 1) * t.stride3) = t.extent := by
  rw [← Nat.add_assoc, ← Nat.add_assoc, stride1_add, stride2_add, stride3_add h]

theorem TensorInfo.ggmlNbytes_of_fits (h : t.WholeBlocks) (hfits : t.Fits alignment) :
    t.ggmlNbytes = t.extent := by
  obtain ⟨hnb1, hnb2, hnb3⟩ := t.strides_of_fits h hfits
  have hextent : t.extent < 2 ^ 64 := Nat.lt_of_le_of_lt (Nat.le_add_right _ _) hfits.2
  rw [ggmlNbytes, strides, hnb1, hnb2, hnb3, Gguf.ggmlNbytes]
  by_cases hne : t.ne0 = 0
  · rw [if_pos hne, extent, elements, hne, Nat.zero_mul, Nat.zero_mul, Nat.zero_mul, Nat.zero_div,
      Nat.zero_mul]
  rw [if_neg hne]
  by_cases hb : t.type.blckSize = 1
  · rw [if_pos hb, row_of_elements hb hne, rest_eq h]
    exact Nat.mod_eq_of_lt hextent
  · have hrow : word (t.ne0 * t.type.traits.typeSize) = t.ne0 * t.type.traits.typeSize :=
      Nat.mod_eq_of_lt hfits.1
    rw [if_neg hb, hrow, row_of_blocks h, rest_eq h]
    exact Nat.mod_eq_of_lt hextent

theorem ggmlPad_eq_padTo (h : x + alignment < 2 ^ 64) : ggmlPad x alignment = padTo alignment x := by
  rw [ggmlPad, padTo]
  have hsum : word (x + alignment - 1) = x + alignment - 1 := Nat.mod_eq_of_lt (by omega)
  rw [hsum]

end Wrapped

section Accepted
variable {mem : Memory} {params : InitParams} {file : File} {ctx : GgufContext}

/-- What every info of accepted metadata satisfies if each of them alone does. -/
theorem forall_infos {P : TensorInfo → Prop}
    (hP : ∀ {enc infos infos'}, InfoStep mem infos enc infos' → (∀ t ∈ infos, P t.1) →
      ∀ t ∈ infos', P t.1)
    (h : Iter (InfoStep mem) n infos enc infos') (hinfos : ∀ t ∈ infos, P t.1) :
    ∀ t ∈ infos', P t.1 := by
  induction h with
  | zero => exact hinfos
  | succ hstep _ ih => exact ih (hP hstep hinfos)

theorem InfoStep.wholeBlocks (h : InfoStep mem infos enc infos')
    (hinfos : ∀ t ∈ infos, t.1.WholeBlocks) : ∀ t ∈ infos', t.1.WholeBlocks := by
  obtain ⟨name, nDims, shape, type, offset, _, _, _, _, _, _, _, _, _, htype, _, rfl⟩ := h
  obtain ⟨_, _, _, _, hblck, hmod⟩ := htype
  intro t ht
  obtain ht | ht := List.mem_append.1 ht
  · exact hinfos t ht
  · rw [List.mem_singleton] at ht
    rw [ht]
    exact ⟨Nat.pos_of_ne_zero hblck, Nat.dvd_of_mod_eq_zero hmod⟩

theorem MetaEnc.wholeBlocks (h : MetaEnc mem enc m) : ∀ t ∈ m.infos, t.1.WholeBlocks := by
  obtain ⟨_, _, _, _, _, _, _, _, hinfos, _⟩ := h
  exact forall_infos InfoStep.wholeBlocks hinfos (List.forall_mem_nil _)

theorem toNat_pos_of_valid {v : UInt32} (h : validAlignment v = true) : 0 < v.toNat := by
  rw [validAlignment, decide_eq_true_eq] at h
  refine Nat.pos_of_ne_zero fun hzero => h.1 ?_
  exact UInt32.toNat_inj.1 hzero

theorem alignment_pos (h : alignment? kvs = some a) : 0 < a := by
  unfold alignment? at h
  cases hkey : findKey kvs generalAlignment with
  | none =>
    rw [hkey] at h
    cases h
    decide
  | some kv =>
    rw [hkey] at h
    obtain ⟨v, hv, rfl⟩ := Option.map_eq_some_iff.1 h
    exact toNat_pos_of_valid (Option.filter_eq_some_iff.1 hv).2

theorem MetaEnc.alignment_pos (h : MetaEnc mem enc m) : 0 < m.alignment := by
  obtain ⟨_, _, _, _, _, _, _, halignment, _⟩ := h
  exact Gguf.alignment_pos halignment

/-- What an accepted file is: metadata, the offset of the data section, and its size. -/
theorem ggufInitFromFile_eq_ok : ggufInitFromFile mem params file = .ok ctx ↔
    ∃ enc rest, file.bytes = enc ++ rest ∧ MetaEnc mem enc ctx.head ∧
      ctx.offset = ggmlPad enc.length ctx.head.alignment ∧ ctx.offset < 2 ^ 63 ∧
      dataSize ctx.head.alignment 0 ctx.head.infos = some ctx.size ∧
      loadData mem params file ctx.head.infos.length ctx.offset ctx.size = .ok ctx.data := by
  change (readMeta mem file.bytes).bind _ = _ ↔ _
  have hlen {enc rest : Bytes} (h : file.bytes = enc ++ rest) :
      file.bytes.length - rest.length = enc.length := by
    rw [h, List.length_append, Nat.add_sub_cancel]
  rw [Load.bind_eq_ok]
  constructor
  · rintro ⟨⟨m, rest⟩, hread, h⟩
    obtain ⟨enc, hbytes, hmeta⟩ := spec_readMeta.ok.1 hread
    simp only [hlen hbytes] at h
    split at h
    case isTrue => cases h
    case isFalse hoffset =>
      split at h
      case h_1 => cases h
      case h_2 size hsize =>
        obtain ⟨data, hdata, h⟩ := Load.bind_eq_ok.1 h
        cases h
        exact ⟨enc, rest, hbytes, hmeta, rfl, Nat.lt_of_not_le hoffset, hsize, hdata⟩
  · rintro ⟨enc, rest, hbytes, hmeta, hoffset, hlt, hsize, hdata⟩
    obtain ⟨m, offset, size, data⟩ := ctx
    change offset = ggmlPad enc.length m.alignment at hoffset
    subst hoffset
    refine ⟨(m, rest), spec_readMeta.ok.2 ⟨enc, hbytes, hmeta⟩, ?_⟩
    change dataSize m.alignment 0 m.infos = some size at hsize
    simp only [hlen hbytes]
    rw [if_neg (Nat.not_le_of_lt hlt), hsize]
    exact Load.bind_eq_ok.2 ⟨data, hdata, rfl⟩

def sections (infos : Infos) : List Section := infos.map fun t => (t.2, t.1.ggmlNbytes)

/-- The check of the offsets, for tensors that can be padded. -/
theorem dataSize_eq_some (hpad : ∀ t ∈ infos, t.1.ggmlNbytes + alignment < 2 ^ 64)
    (hstart : start < 2 ^ 64) :
    dataSize alignment start infos = some stop ↔
      Laid alignment start (sections infos) stop ∧ stop < 2 ^ 64 := by
  induction infos generalizing start with
  | nil =>
    constructor
    · intro h
      cases h
      exact ⟨.nil, hstart⟩
    · rintro ⟨h, _⟩
      cases h
      rfl
  | cons t infos ih =>
    obtain ⟨t, offset⟩ := t
    rw [List.forall_mem_cons] at hpad
    simp only [dataSize, ggmlPad_eq_padTo hpad.1]
    constructor
    · intro h
      split at h
      case isTrue => cases h
      case isFalse hoffset =>
        split at h
        case isTrue => cases h
        case isFalse hroom =>
          obtain ⟨hlaid, hstop⟩ := (ih hpad.2 (by omega)).1 h
          rw [not_not] at hoffset
          rw [hoffset]
          exact ⟨.cons hlaid, hstop⟩
    · rintro ⟨hlaid, hstop⟩
      cases hlaid with
      | cons hlaid =>
        have hle : offset + padTo alignment t.ggmlNbytes ≤ stop := hlaid.le
        have hnext : offset + padTo alignment t.ggmlNbytes < 2 ^ 64 := Nat.lt_of_le_of_lt hle hstop
        rw [if_neg (not_not.2 rfl), if_neg (by omega)]
        exact (ih hpad.2 hnext).2 ⟨hlaid, hstop⟩

/-- Two tensors share no byte of the data section. -/
def Apart (t t' : TensorInfo × Nat) : Prop :=
  ∀ i, ¬ ((t.2 ≤ i ∧ i < t.2 + t.1.extent) ∧ (t'.2 ≤ i ∧ i < t'.2 + t'.1.extent))

/-- The tensors lie apart from each other, aligned and inside the data section, and nothing that is
computed for them wraps around. -/
structure GgufContext.Sound (ctx : GgufContext) : Prop where
  apart : ctx.head.infos.Pairwise Apart
  aligned : ∀ t ∈ ctx.head.infos, ctx.head.alignment ∣ t.2
  inside : ∀ t ∈ ctx.head.infos, t.2 + t.1.extent ≤ ctx.size
  unwrapped : ∀ t ∈ ctx.head.infos, ∀ n ∈ t.1.results ctx.head.alignment, n < 2 ^ 64
  total : (ctx.head.infos.map fun t => padTo ctx.head.alignment t.1.extent).sum < 2 ^ 64

theorem sound_iff_fits (h : ggufInitFromFile mem params file = .ok ctx) :
    ctx.Sound ↔ ∀ t ∈ ctx.head.infos, t.1.Fits ctx.head.alignment := by
  obtain ⟨enc, rest, _, hmeta, _, _, hsize, _⟩ := ggufInitFromFile_eq_ok.1 h
  have hblocks := hmeta.wholeBlocks
  have hpos := hmeta.alignment_pos
  constructor
  · intro hsound t ht
    exact (t.1.results_iff_fits (hblocks t ht) hpos).1 (hsound.unwrapped t ht)
  · intro hfits
    have hnbytes {t : TensorInfo × Nat} (ht : t ∈ ctx.head.infos) : t.1.ggmlNbytes = t.1.extent :=
      t.1.ggmlNbytes_of_fits (hblocks t ht) (hfits t ht)
    have hpad (t : TensorInfo × Nat) (ht : t ∈ ctx.head.infos) :
        t.1.ggmlNbytes + ctx.head.alignment < 2 ^ 64 := by
      rw [hnbytes ht]
      exact (hfits t ht).2
    obtain ⟨hlaid, hstop⟩ := (dataSize_eq_some hpad (by decide)).1 hsize
    have hsections : sections ctx.head.infos = ctx.head.infos.map fun t => (t.2, t.1.extent) :=
      List.map_congr_left fun t ht => congrArg (Prod.mk t.2) (hnbytes ht)
    rw [hsections] at hlaid
    have hmem {P : Section → Prop} (h : ∀ s ∈ ctx.head.infos.map fun t => (t.2, t.1.extent), P s) :
        ∀ t ∈ ctx.head.infos, P (t.2, t.1.extent) :=
      fun t ht => h _ (List.mem_map_of_mem ht)
    constructor
    case apart =>
      refine (List.pairwise_map.1 (hlaid.pairwise hpos)).imp ?_
      rintro t t' hle i ⟨⟨_, hlt⟩, hge, _⟩
      exact Nat.not_le_of_lt hlt (Nat.le_trans hle hge)
    case aligned => exact hmem (hlaid.dvd (Nat.dvd_zero _))
    case inside => exact hmem (hlaid.end_le hpos)
    case unwrapped =>
      intro t ht
      exact (t.1.results_iff_fits (hblocks t ht) hpos).2 (hfits t ht)
    case total =>
      have hstop' := hlaid.stop_eq
      rw [List.map_map, Nat.zero_add] at hstop'
      exact lt_of_eq_of_lt hstop'.symm hstop

/-- A tensor of `2 ^ 64` bytes, which `ggml_nbytes` finds empty. -/
def wrappedTensor : TensorInfo :=
  ⟨[], .f64, 2 ^ 61, 1, 1, 1, Nat.one_pos, Nat.one_pos, Nat.one_pos⟩

def wrappedFile : Bytes :=
  (ggufMagic ++ (leBytes 4 3 ++ (leBytes 8 1 ++ leBytes 8 0))) ++ ([] ++
    (encodeStr [] ++ (leBytes 4 1 ++ ((leBytes 8 (2 ^ 61) ++ ([] ++ ([] ++ []))) ++
      (leBytes 4 28 ++ leBytes 8 0)))))

def wrappedContext : GgufContext := ⟨⟨3, [], 32, [(wrappedTensor, 0)]⟩, 64, 0, none⟩

theorem ggufInitFromFile_wrapped :
    ggufInitFromFile (fun _ => true) ⟨false, false⟩ ⟨wrappedFile, by decide⟩ =
      .ok wrappedContext := by
  have hinfo : InfoStep (fun _ => true) [] (encodeStr [] ++ (leBytes 4 1 ++
      ((leBytes 8 (2 ^ 61) ++ ([] ++ ([] ++ []))) ++ (leBytes 4 28 ++ leBytes 8 0))))
      [(wrappedTensor, 0)] := by
    refine ⟨[], 1, ⟨2 ^ 61, 1, 1, 1, by decide, by decide, by decide⟩, .f64, 0, _, _, _, rfl,
      ⟨rfl, by decide, rfl⟩, by decide, List.not_mem_nil, by decide, ?_, ?_, by decide, rfl⟩
    · exact ⟨_, _, _, _, rfl, ⟨rfl, by decide⟩, ⟨rfl, rfl⟩, ⟨rfl, rfl⟩, ⟨rfl, rfl⟩, by decide⟩
    · exact ⟨28, rfl, by decide, rfl, by decide, rfl⟩
  have hinfos := Iter.succ hinfo .zero
  rw [List.append_nil] at hinfos
  exact ggufInitFromFile_eq_ok.2 ⟨wrappedFile, [], (List.append_nil _).symm,
    ⟨⟨3, 1, 0⟩, _, _, _, rfl, ⟨rfl, .inr rfl, by decide, by decide⟩, .zero, rfl, hinfos, rfl⟩,
    rfl, by decide, by decide, rfl⟩

theorem sound_iff_fits_wrapped :
    wrappedContext.Sound ↔ ∀ t ∈ wrappedContext.head.infos, t.1.Fits 32 :=
  sound_iff_fits ggufInitFromFile_wrapped

theorem accepted_outside_data :
    ggufInitFromFile (fun _ => true) ⟨false, false⟩ ⟨wrappedFile, by decide⟩ =
      .ok wrappedContext ∧ ¬ wrappedContext.Sound := by
  refine ⟨ggufInitFromFile_wrapped, fun hsound => ?_⟩
  have hinside := hsound.inside (wrappedTensor, 0) List.mem_cons_self
  exact absurd hinside (by decide)

end Accepted

end ActQuant.Gguf
