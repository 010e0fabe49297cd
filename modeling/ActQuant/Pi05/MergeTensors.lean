import ActQuant.Lib.Partition
import ActQuant.Pi05.MergeMetadata

namespace ActQuant.Pi05
open ActQuant.Lib ActQuant.Quant ActQuant.Gguf

def nLayers : Nat := 18

/-- The tensors that `export_llm` writes for a layer. -/
def layerSuffixes : List String :=
  ["attn_norm.weight", "attn_q.weight", "attn_k.weight", "attn_v.weight", "attn_output.weight",
   "ffn_norm.weight", "ffn_gate.weight", "ffn_up.weight", "ffn_down.weight"]

def layerName (i : Nat) (suffix : String) : List Char := numbered "blk." i suffix.toList

/-- The names of the tensors that `export_llm` writes. -/
def exportedNames : List (List Char) :=
  ["token_embd.weight".toList, "output.weight".toList, "output_norm.weight".toList] ++
    (List.range nLayers).flatMap fun i => layerSuffixes.map (layerName i)

/-- The tensors that the tool leaves out by its rules. -/
def Excluded (useLlmEmbed : Bool) (name : List Char) : Prop :=
  name = "output.weight".toList ∨ name = "output_norm.weight".toList ∨
    (useLlmEmbed = false ∧ name = "token_embd.weight".toList) ∨
    ∃ s ∈ llmSkipNorms, endsWith s name = true

/-- In front of the dot after the number no text that starts with a dot and a letter is found. -/
theorem replace_layerName {old : String} (hold : old.toList = '.' :: 'a' :: tail) (new : String)
    (i : Nat) (suffix : String) :
    replace old new (layerName i suffix) =
      "blk.".toList ++ (decimal i ++ replace old new ('.' :: suffix.toList)) := by
  have hdigits : passesOver (· == ·) old.toList (decimal i) = true := by
    apply passesOver_decimal _ fun c => isDigit_of_mem_decimal
    rw [hold]
    rfl
  have hpass : passesOver (· == ·) old.toList ("blk.".toList ++ decimal i) = true := by
    obtain ⟨d, ds, hds⟩ := List.exists_cons_of_ne_nil (decimal_ne_nil i)
    have hd : ('a' == d) = false := by
      apply beq_false_of_ne
      rintro rfl
      have hdigit : Char.isDigit 'a' = true := by
        apply isDigit_of_mem_decimal (n := i)
        rw [hds]
        exact .head _
      exact absurd hdigit (by decide)
    have hdot : clash (· == ·) old.toList ('.' :: decimal i) = true := by
      rw [hold, hds]
      simp only [clash, hd, Bool.not_false, Bool.true_or, Bool.or_true]
    have hletters : "blk.".toList = ['b', 'l', 'k', '.'] := rfl
    rw [hletters]
    simp only [List.cons_append, List.nil_append, passesOver, hdigits, hdot]
    rw [hold]
    rfl
  rw [layerName, numbered, ← List.append_assoc, replace, replaceFrom_append_of_passesOver _ hpass,
    List.append_assoc]
  rfl

def paliSuffix (suffix : String) : String :=
  if suffix = "attn_output.weight" then "attn_o.weight" else suffix

def normSuffixes : List String := ["attn_norm.weight", "ffn_norm.weight"]

theorem endsWith_layerName {s suffix : String}
    (h : clash (· == ·) s.toList.reverse ('.' :: suffix.toList).reverse = true) (i : Nat) :
    endsWith s (layerName i suffix) = false := by
  rw [layerName, numbered, ← List.append_assoc]
  exact endsWith_of_clash h _

theorem layerName_ne (i : Nat) (suffix : String) (h : name.head? ≠ some 'b') :
    layerName i suffix ≠ name := by
  rintro rfl
  exact h rfl

/-- A layer's tensor gets past the rules for the names outside the layers. -/
theorem llmNameToPali_layerName (i : Nat) (suffix : String) (useLlmEmbed : Bool) :
    llmNameToPali (layerName i suffix) useLlmEmbed =
      if llmSkipNorms.any fun s => endsWith s (layerName i suffix) then none
      else some ("pali.".toList ++ replace ".attn_output.weight" ".attn_o.weight"
        (layerName i suffix)) := by
  have hskip : layerName i suffix ∉ llmSkipDefault := by
    intro hmem
    have hheads : ∀ name ∈ llmSkipDefault, name.head? ≠ some 'b' := by decide
    exact layerName_ne i suffix (hheads _ hmem) rfl
  have hlookup : llmToplevelRemap.lookup (layerName i suffix) = none := by
    rw [llmToplevelRemap, List.lookup_cons, beq_false_of_ne (layerName_ne i suffix (by decide)),
      List.lookup_nil]
  have hstart : startsWith "blk." (layerName i suffix) = true :=
    List.isPrefixOf_iff_prefix.2 (List.prefix_append _ _)
  rw [llmNameToPali]
  have hskip' : layerName i suffix ∉ (if useLlmEmbed then
      llmSkipDefault.filter (· ≠ "token_embd.weight".toList) else llmSkipDefault) := by
    split
    · exact fun hmem => hskip (List.mem_of_mem_filter hmem)
    · exact hskip
  rw [if_neg fun hmem => hskip' (List.contains_iff_mem.1 hmem), hlookup, if_neg (by simp), hstart, if_neg (by decide)]

theorem replace_suffix (h : suffix ∈ layerSuffixes) :
    replace ".attn_output.weight" ".attn_o.weight" ('.' :: suffix.toList) =
        '.' :: (paliSuffix suffix).toList ∧
      replace ".attn_o.weight" ".attn_output.weight" ('.' :: (paliSuffix suffix).toList) =
        '.' :: suffix.toList := by
  revert suffix
  decide

/-- The tensors of a layer but for the norms are renamed. -/
theorem llmNameToPali_of_not_norm (h : suffix ∈ layerSuffixes) (hnorm : suffix ∉ normSuffixes)
    (i : Nat) (useLlmEmbed : Bool) :
    llmNameToPali (layerName i suffix) useLlmEmbed =
      some ("pali.".toList ++ layerName i (paliSuffix suffix)) := by
  have hclash : ∀ suffix ∈ layerSuffixes, suffix ∉ normSuffixes → ∀ s ∈ llmSkipNorms,
      clash (· == ·) s.toList.reverse ('.' :: suffix.toList).reverse = true := by decide
  have hnorms : (llmSkipNorms.any fun s => endsWith s (layerName i suffix)) = false := by
    rw [List.any_eq_false]
    intro s hs
    rw [endsWith_layerName (hclash suffix h hnorm s hs)]
    exact Bool.false_ne_true
  rw [llmNameToPali_layerName, hnorms, if_neg Bool.false_ne_true, replace_layerName rfl,
    (replace_suffix h).1]
  rfl

theorem endsWith_layerName_self {s : String} (h : s.toList = '.' :: suffix.toList) (i : Nat) :
    endsWith s (layerName i suffix) = true := by
  rw [endsWith, List.isSuffixOf_iff_suffix, h, layerName, numbered, ← List.append_assoc]
  exact List.suffix_append _ _

/-- The norms are kept as the base has them. -/
theorem norm_excluded (h : suffix ∈ normSuffixes) (i : Nat) :
    ∃ s ∈ llmSkipNorms, endsWith s (layerName i suffix) = true := by
  have hnorms : ∀ suffix ∈ normSuffixes, ∃ s ∈ llmSkipNorms, s.toList = '.' :: suffix.toList := by
    decide
  obtain ⟨s, hs, hsuffix⟩ := hnorms suffix h
  exact ⟨s, hs, endsWith_layerName_self hsuffix i⟩

theorem llmNameToPali_of_norm (h : suffix ∈ normSuffixes) (i : Nat) (useLlmEmbed : Bool) :
    llmNameToPali (layerName i suffix) useLlmEmbed = none := by
  have hany : (llmSkipNorms.any fun s => endsWith s (layerName i suffix)) = true :=
    List.any_eq_true.2 (norm_excluded h i)
  rw [llmNameToPali_layerName, hany, if_pos rfl]

/-- The way back from the name of a layer's tensor. -/
theorem paliNameToLlm_layerName (h : suffix ∈ layerSuffixes) (i : Nat) :
    paliNameToLlm ("pali.".toList ++ layerName i (paliSuffix suffix)) =
      some (layerName i suffix) := by
  have hstart : startsWith "pali.blk." ("pali.".toList ++ layerName i (paliSuffix suffix)) =
      true := by
    rw [startsWith, List.isPrefixOf_iff_prefix]
    exact ⟨decimal i ++ '.' :: (paliSuffix suffix).toList, rfl⟩
  have hdrop : ("pali.".toList ++ layerName i (paliSuffix suffix)).drop 5 =
      layerName i (paliSuffix suffix) := List.drop_left' rfl
  rw [paliNameToLlm, hstart, if_neg (by decide), hdrop, replace_layerName rfl,
    (replace_suffix h).2]
  rfl

theorem mem_exportedNames (h : name ∈ exportedNames) :
    name = "token_embd.weight".toList ∨ name = "output.weight".toList ∨
      name = "output_norm.weight".toList ∨
        ∃ i, ∃ suffix ∈ layerSuffixes, name = layerName i suffix := by
  rw [exportedNames, List.mem_append] at h
  rcases h with h | h
  · simp only [List.mem_cons, List.not_mem_nil, or_false] at h
    rcases h with h | h | h
    · exact .inl h
    · exact .inr (.inl h)
    · exact .inr (.inr (.inl h))
  · obtain ⟨i, -, h⟩ := List.mem_flatMap.1 h
    obtain ⟨suffix, hsuffix, rfl⟩ := List.mem_map.1 h
    exact .inr (.inr (.inr ⟨i, suffix, hsuffix, rfl⟩))

/-- A name that is renamed leads back to itself, but for the embedding that is routed. -/
theorem paliNameToLlm_of_llmNameToPali (hname : name ∈ exportedNames)
    (h : llmNameToPali name useLlmEmbed = some paliName) :
    paliNameToLlm paliName = some name ∨
      useLlmEmbed = true ∧ name = "token_embd.weight".toList ∧
        paliName = "embed.weight".toList := by
  rcases mem_exportedNames hname with rfl | rfl | rfl | ⟨i, suffix, hsuffix, rfl⟩
  · cases useLlmEmbed with
    | false => cases h
    | true =>
      cases h
      exact .inr ⟨rfl, rfl, rfl⟩
  · cases useLlmEmbed <;> cases h
  · cases useLlmEmbed <;> cases h
  · by_cases hnorm : suffix ∈ normSuffixes
    · rw [llmNameToPali_of_norm hnorm] at h
      cases h
    · rw [llmNameToPali_of_not_norm hsuffix hnorm] at h
      cases h
      exact .inl (paliNameToLlm_layerName hsuffix i)

theorem llmNameToPali_injective (hname : name ∈ exportedNames) (hname' : name' ∈ exportedNames)
    (h : llmNameToPali name useLlmEmbed = some paliName)
    (h' : llmNameToPali name' useLlmEmbed = some paliName) : name = name' := by
  have hembed : paliNameToLlm "embed.weight".toList = none := by decide
  rcases paliNameToLlm_of_llmNameToPali hname h with hback | ⟨-, rfl, rfl⟩
  · rcases paliNameToLlm_of_llmNameToPali hname' h' with hback' | ⟨-, rfl, rfl⟩
    · exact Option.some.inj (hback.symm.trans hback')
    · cases hembed.symm.trans hback
  · rcases paliNameToLlm_of_llmNameToPali hname' h' with hback' | ⟨-, rfl, -⟩
    · cases hembed.symm.trans hback'
    · rfl

/-- What the tool does not leave out has a name in the merged file. -/
theorem exists_llmNameToPali (hname : name ∈ exportedNames) (h : ¬ Excluded useLlmEmbed name) :
    ∃ paliName, llmNameToPali name useLlmEmbed = some paliName := by
  rcases mem_exportedNames hname with rfl | rfl | rfl | ⟨i, suffix, hsuffix, rfl⟩
  · cases useLlmEmbed with
    | false => exact absurd (.inr (.inr (.inl ⟨rfl, rfl⟩))) h
    | true => exact ⟨_, rfl⟩
  · exact absurd (.inl rfl) h
  · exact absurd (.inr (.inl rfl)) h
  · by_cases hnorm : suffix ∈ normSuffixes
    · exact absurd (.inr (.inr (.inr (norm_excluded hnorm i)))) h
    · exact ⟨_, llmNameToPali_of_not_norm hsuffix hnorm i useLlmEmbed⟩

/-- The name that a tensor of the LLM file gets in the merged one. -/
def mergedName (useLlmEmbed : Bool) (u : FileTensor) : Option (List Char) :=
  (decodeUtf8 u.name).bind (llmNameToPali · useLlmEmbed)

/-- The tensor that a name of the base is patched with: the last one that is renamed to it. -/
def patchFor (llm : GgufFile) (useLlmEmbed : Bool) (name : Bytes) : Option FileTensor :=
  (llm.tensors.filter fun u => (mergedName useLlmEmbed u).map encodeUtf8 = some name).getLast?

/-- A tensor of the base as it is in the merged file. -/
def mergedTensor (llm : GgufFile) (useLlmEmbed : Bool) (t : FileTensor) : FileTensor :=
  { (patchFor llm useLlmEmbed t.name).getD t with name := t.name }

/-- A written tensor, without its place in the file. -/
def toFile (t : WriterTensor) : FileTensor := ⟨encodeUtf8 t.name, t.dims, t.type, t.data⟩

theorem quantSizes_pos (h : quantSizes type = some sizes) : 0 < sizes.1 ∧ 0 < sizes.2 := by
  cases type <;> cases h <;> decide

theorem fromByteShape_toByteShape (hpos : 0 < sizes.1 ∧ 0 < sizes.2)
    (h : quantShapeToByteShape dims sizes = some shape) :
    quantShapeFromByteShape shape sizes = some dims := by
  cases dims with
  | nil => cases h
  | cons ne0 dims =>
    rw [quantShapeToByteShape, Option.ite_none_right_eq_some, Option.some.injEq] at h
    obtain ⟨hblocks, rfl⟩ := h
    rw [quantShapeFromByteShape, if_pos (Nat.mul_mod_left _ _), Nat.mul_div_cancel _ hpos.2,
      Nat.div_mul_cancel (Nat.dvd_of_mod_eq_zero hblocks)]

theorem typeOfDType_itemType (h : itemType type ≠ .uint8) :
    typeOfDType (itemType type) = some type := by
  cases type <;> first | rfl | exact absurd rfl h

theorem encodeUtf8_injective (h : encodeUtf8 s = encodeUtf8 t) : s = t := by
  have hdec := congrArg decodeUtf8 h
  rw [decodeUtf8_encodeUtf8, decodeUtf8_encodeUtf8] at hdec
  exact Option.some.inj hdec

section Read
variable {t : FileTensor} {rt : ReaderTensor}

/-- What a tensor that is read was in the file, and what it is written as. -/
theorem of_buildTensor (h : buildTensor t = some rt) :
    decodeUtf8 t.name = some rt.name ∧ rt.data = t.data ∧
      t.data.length = fileBytes t.type t.dims ∧ tensorInfo rt = some (t.type, t.dims) := by
  simp only [buildTensor, Option.bind_eq_bind, Option.bind_eq_some_iff,
    Option.ite_none_right_eq_some, Option.some.injEq] at h
  obtain ⟨name, hname, sizes, hsizes, dims, hdims, hlen, rfl⟩ := h
  refine ⟨hname, rfl, ?_, ?_⟩
  · rw [fileBytes, hsizes, hlen]
  · rw [arrayShape] at hdims
    by_cases htype : itemType t.type = .uint8
    · rw [if_pos htype] at hdims
      have hback := fromByteShape_toByteShape (quantSizes_pos hsizes) hdims
      simp only [tensorInfo, htype, if_true, hsizes, hback, Option.bind_eq_bind, Option.bind_some]
    · rw [if_neg htype] at hdims
      cases hdims
      simp only [tensorInfo, htype, if_false, typeOfDType_itemType htype, Option.bind_eq_bind,
        Option.bind_some]

theorem of_addTensor (h : buildTensor t = some rt) (hadd : addTensor ts name rt = some ts') :
    ts' = ts ++ [⟨name, t.type, t.dims, t.data⟩] := by
  obtain ⟨-, hdata, -, hinfo⟩ := of_buildTensor h
  rw [addTensor, hinfo, Option.bind_eq_bind, Option.bind_some, Option.ite_none_left_eq_some,
    Option.some.injEq, hdata] at hadd
  exact hadd.2.symm

end Read

section Written

def Sized (t : WriterTensor) : Prop := t.data.length = fileBytes t.type t.dims

def padding (t : WriterTensor) : Bytes :=
  List.replicate (padTo defaultAlignment t.data.length - t.data.length) 0

theorem length_padded (t : WriterTensor) :
    (t.data ++ padding t).length = padTo defaultAlignment t.data.length := by
  have hle : t.data.length ≤ padTo defaultAlignment t.data.length :=
    le_ceilDiv_mul (by decide) _
  rw [padding, List.length_append, List.length_replicate, Nat.add_sub_cancel' hle]

/-- Behind anything that was written before, every info points at its tensor. -/
theorem map_writeTiData {ts : List WriterTensor} (h : ∀ t ∈ ts, Sized t) (pre : Bytes) :
    ((writeTiData pre.length ts).map fun i => (⟨i.name, i.dims, i.type,
      ((pre ++ writeTensors ts).drop i.offset).take (fileBytes i.type i.dims)⟩ : FileTensor)) =
      ts.map toFile := by
  induction ts generalizing pre with
  | nil => rfl
  | cons t ts ih =>
    have hrest := ih (fun u hu => h u (.tail _ hu)) (pre ++ (t.data ++ padding t))
    have hall : pre ++ writeTensors (t :: ts) =
        pre ++ (t.data ++ padding t) ++ writeTensors ts := by
      simp only [writeTensors, padding, List.flatMap_cons, List.append_assoc]
    have hdata : ((pre ++ writeTensors (t :: ts)).drop pre.length).take
        (fileBytes t.type t.dims) = t.data := by
      rw [List.drop_left, writeTensors, List.flatMap_cons, List.append_assoc, ← h t (.head _),
        List.take_left]
    rw [writeTiData, List.map_cons, List.map_cons, hdata, hall]
    rw [List.length_append, length_padded] at hrest
    rw [hrest]
    rfl

end Written

section Patches
variable {llm : GgufFile} {rts : List ReaderTensor}

theorem lookup_llmTensors (hread : llm.tensors.mapM buildTensor = some rts) (useLlmEmbed : Bool)
    (name : List Char) :
    (llmTensors rts useLlmEmbed).lookup name =
      (patchFor llm useLlmEmbed (encodeUtf8 name)).bind buildTensor := by
  have hsame : ∀ u rt, buildTensor u = some rt →
      decide (llmNameToPali rt.name useLlmEmbed = some name) =
        decide ((mergedName useLlmEmbed u).map encodeUtf8 = some (encodeUtf8 name)) := by
    intro u rt hu
    rw [mergedName, (of_buildTensor hu).1, Option.bind_some, decide_eq_decide]
    constructor
    · intro h
      rw [h, Option.map_some]
    · intro h
      obtain ⟨name', hname, henc⟩ := Option.map_eq_some_iff.1 h
      rw [hname, encodeUtf8_injective henc]
  have hlookup := Dict.lookup_foldl_set (fun rt => llmNameToPali rt.name useLlmEmbed) id rts name
  rw [Option.map_id_fun, id_eq] at hlookup
  have hlast := getLast?_of_mapM (mapM_filter hsame hread)
  rw [patchFor, ← hlast, ← hlookup, llmTensors]
  congr 2
  funext d rt
  cases llmNameToPali rt.name useLlmEmbed with
  | none => rfl
  | some paliName => rfl

theorem isSome_of_patchFor (hread : llm.tensors.mapM buildTensor = some rts)
    (h : patchFor llm useLlmEmbed name = some u) : ∃ rt, buildTensor u = some rt :=
  isSome_of_mapM hread (List.mem_of_mem_filter (List.mem_of_getLast? h))

/-- The writer gets the tensors of the base in their order, each with what it is patched with. -/
theorem of_mergeTensors_from {base : List FileTensor} {brts : List ReaderTensor}
    (hread : llm.tensors.mapM buildTensor = some rts)
    (hbase : base.mapM buildTensor = some brts)
    (h : brts.foldlM (fun tensors t =>
      match (llmTensors rts useLlmEmbed).lookup t.name with
      | some lt => addTensor tensors t.name lt
      | none => addTensor tensors t.name t) acc = some out) :
    ∃ ws, out = acc ++ ws ∧ ws.map toFile = base.map (mergedTensor llm useLlmEmbed) ∧
      ∀ w ∈ ws, Sized w := by
  induction base generalizing brts acc with
  | nil =>
    cases hbase
    cases h
    exact ⟨[], (List.append_nil _).symm, rfl, fun w hw => absurd hw List.not_mem_nil⟩
  | cons t base ih =>
    obtain ⟨rt, brts, ht, hrest, rfl⟩ := mapM_cons_eq_some hbase
    obtain ⟨hname, -, -, -⟩ := of_buildTensor ht
    have hback : encodeUtf8 rt.name = t.name := encodeUtf8_of_decodeUtf8 hname
    rw [List.foldlM_cons, lookup_llmTensors hread, hback, Option.bind_eq_bind,
      Option.bind_eq_some_iff] at h
    obtain ⟨acc', hadd, h⟩ := h
    have hsource : ∃ rsource, buildTensor ((patchFor llm useLlmEmbed t.name).getD t) =
        some rsource ∧ addTensor acc rt.name rsource = some acc' := by
      cases hpatch : patchFor llm useLlmEmbed t.name with
      | none =>
        rw [hpatch, Option.bind_none] at hadd
        exact ⟨rt, ht, hadd⟩
      | some u =>
        obtain ⟨lt, hlt⟩ := isSome_of_patchFor hread hpatch
        rw [hpatch, Option.bind_some, hlt] at hadd
        exact ⟨lt, hlt, hadd⟩
    obtain ⟨rsource, hbuild, hadd⟩ := hsource
    have hacc := of_addTensor hbuild hadd
    subst hacc
    obtain ⟨ws, rfl, hws, hsized⟩ := ih hrest h
    let w : WriterTensor := ⟨rt.name, ((patchFor llm useLlmEmbed t.name).getD t).type,
      ((patchFor llm useLlmEmbed t.name).getD t).dims,
      ((patchFor llm useLlmEmbed t.name).getD t).data⟩
    refine ⟨w :: ws, List.append_assoc _ _ _, ?_, ?_⟩
    · have hw : toFile w = mergedTensor llm useLlmEmbed t := by
        rw [toFile, hback]
        rfl
      rw [List.map_cons, List.map_cons, hw, hws]
    · intro w' hw'
      rcases List.mem_cons.1 hw' with rfl | hw'
      · exact (of_buildTensor hbuild).2.2.1
      · exact hsized w' hw'

end Patches

/-- The merged file has the tensors of the base, in their order, each patched or as it was. -/
theorem tensors_of_merge (h : merge base llm quantType useLlmEmbed = some out) :
    out.tensors = base.tensors.map (mergedTensor llm useLlmEmbed) := by
  obtain ⟨m⟩ := nonempty_merged h
  have hbase := (of_ggufReader m.base_read).2.1
  have hllm := (of_ggufReader m.llm_read).2.1
  obtain ⟨ws, hws, hfile, hsized⟩ := of_mergeTensors_from hllm hbase m.merged
  rw [List.nil_append] at hws
  subst hws
  have hfound := map_writeTiData hsized []
  rw [List.nil_append] at hfound
  rw [WrittenFile.tensors, m.infos_eq, m.data_eq, ← hfile]
  exact hfound

theorem names_of_mapM {ts : List FileTensor} {rts : List ReaderTensor}
    (h : ts.mapM buildTensor = some rts) :
    ts.map FileTensor.name = (rts.map ReaderTensor.name).map encodeUtf8 := by
  induction ts generalizing rts with
  | nil =>
    cases h
    rfl
  | cons t ts ih =>
    obtain ⟨rt, rts, ht, hts, rfl⟩ := mapM_cons_eq_some h
    have hname := encodeUtf8_of_decodeUtf8 (of_buildTensor ht).1
    rw [List.map_cons, List.map_cons, List.map_cons, ih hts, hname]

/-- In a file that is read no two tensors share a name. -/
theorem eq_of_name_eq (h : ggufReader f = some (fields, rts)) (ht : t ∈ f.tensors)
    (hu : u ∈ f.tensors) (hname : t.name = u.name) : t = u := by
  obtain ⟨-, hread, hnodup⟩ := of_ggufReader h
  apply List.inj_on_of_nodup_map _ ht hu hname
  rw [names_of_mapM hread]
  exact hnodup.map fun _ _ => encodeUtf8_injective

theorem mergedName_of_name (h : u.name = encodeUtf8 name) (useLlmEmbed : Bool) :
    mergedName useLlmEmbed u = llmNameToPali name useLlmEmbed := by
  rw [mergedName, h, decodeUtf8_encodeUtf8, Option.bind_some]

section Exported
variable {base llm : GgufFile}

theorem eq_of_mergedName (hread : ggufReader llm = some (fields, rts))
    (hexp : ∀ u ∈ llm.tensors, ∃ name ∈ exportedNames, u.name = encodeUtf8 name)
    (hu : u ∈ llm.tensors) (hu' : u' ∈ llm.tensors)
    (h : mergedName useLlmEmbed u = some paliName)
    (h' : mergedName useLlmEmbed u' = some paliName) : u' = u := by
  obtain ⟨name, hname, heq⟩ := hexp u hu
  obtain ⟨name', hname', heq'⟩ := hexp u' hu'
  rw [mergedName_of_name heq] at h
  rw [mergedName_of_name heq'] at h'
  have hsame := llmNameToPali_injective hname' hname h' h
  exact eq_of_name_eq hread hu' hu (by rw [heq, heq', hsame])

/-- A tensor that alone is renamed to the name of a tensor of the base takes its place. -/
theorem mergedTensor_eq (hu : u ∈ llm.tensors) (h : mergedName useLlmEmbed u = some paliName)
    (honly : ∀ u' ∈ llm.tensors, mergedName useLlmEmbed u' = some paliName → u' = u)
    (ht : t.name = encodeUtf8 paliName) :
    mergedTensor llm useLlmEmbed t = { u with name := t.name } := by
  let renamed := llm.tensors.filter fun u =>
    (mergedName useLlmEmbed u).map encodeUtf8 = some t.name
  have hmem : u ∈ renamed := by
    apply List.mem_filter.2 ⟨hu, _⟩
    rw [decide_eq_true_eq, h, ht, Option.map_some]
  obtain ⟨u', hu'⟩ : ∃ u', renamed.getLast? = some u' := by
    apply Option.isSome_iff_exists.1
    rw [List.getLast?_isSome]
    exact List.ne_nil_of_mem hmem
  obtain ⟨hllm, hname⟩ := List.mem_filter.1 (List.mem_of_getLast? hu')
  rw [decide_eq_true_eq, ht] at hname
  obtain ⟨paliName', hpali, henc⟩ := Option.map_eq_some_iff.1 hname
  rw [encodeUtf8_injective henc] at hpali
  have hlast : patchFor llm useLlmEmbed t.name = some u := by
    rw [← honly u' hllm hpali]
    exact hu'
  rw [mergedTensor, hlast, Option.getD_some]

theorem merge_patches (h : merge base llm quantType useLlmEmbed = some out) :
    out.tensors = base.tensors.map (mergedTensor llm useLlmEmbed) ∧
      ((∀ u ∈ llm.tensors, ∃ name ∈ exportedNames, u.name = encodeUtf8 name) →
        ∀ u ∈ llm.tensors, ∀ name, u.name = encodeUtf8 name →
          (¬ Excluded useLlmEmbed name → ∃ paliName,
            llmNameToPali name useLlmEmbed = some paliName) ∧
          ∀ paliName, llmNameToPali name useLlmEmbed = some paliName →
            (paliNameToLlm paliName = some name ∨ useLlmEmbed = true ∧
              name = "token_embd.weight".toList ∧ paliName = "embed.weight".toList) ∧
            (∀ u' ∈ llm.tensors, mergedName useLlmEmbed u' = some paliName → u' = u) ∧
            ∀ t ∈ base.tensors, t.name = encodeUtf8 paliName →
              { u with name := t.name } ∈ out.tensors) := by
  have htensors := tensors_of_merge h
  obtain ⟨m⟩ := nonempty_merged h
  refine ⟨htensors, ?_⟩
  intro hexp u hu name hname
  obtain ⟨name', hmem, heq⟩ := hexp u hu
  have hsame : name = name' := encodeUtf8_injective (hname.symm.trans heq)
  subst hsame
  refine ⟨exists_llmNameToPali hmem, ?_⟩
  intro paliName hpali
  have hmerged : mergedName useLlmEmbed u = some paliName :=
    (mergedName_of_name hname useLlmEmbed).trans hpali
  have honly : ∀ u' ∈ llm.tensors, mergedName useLlmEmbed u' = some paliName → u' = u :=
    fun u' hu' h' => eq_of_mergedName m.llm_read hexp hu hu' hmerged h'
  refine ⟨paliNameToLlm_of_llmNameToPali hmem hpali, honly, ?_⟩
  intro t ht htname
  rw [htensors, ← mergedTensor_eq hu hmerged honly htname]
  exact List.mem_map_of_mem ht

end Exported

/-- A base and an LLM file with a norm and a projection of one layer. -/
def normTensor (name : String) (b : UInt8) : FileTensor :=
  ⟨encodeUtf8 name.toList, [1], .f32, [b, 0, 0, 0]⟩

def layerBase : GgufFile where
  version := 3
  kvs := []
  tensors := [normTensor "pali.blk.0.attn_norm.weight" 1, normTensor "pali.blk.0.attn_q.weight" 2]

def layerLlm : GgufFile where
  version := 3
  kvs := []
  tensors := [normTensor "blk.0.attn_norm.weight" 3, normTensor "blk.0.attn_q.weight" 4]

theorem buildTensor_normTensor (name : String) (b : UInt8) :
    buildTensor (normTensor name b) = some ⟨name.toList, .f32, .float32, [1], [b, 0, 0, 0]⟩ := by
  rw [buildTensor, normTensor, decodeUtf8_encodeUtf8]
  have hlen : 4 = [1].prod * 4 / 1 := by decide
  exact if_pos hlen

def layerReader (name : String) (b : UInt8) : ReaderTensor :=
  ⟨name.toList, .f32, .float32, [1], [b, 0, 0, 0]⟩

theorem read_layerBase : ggufReader layerBase = some (bookkeeping layerBase,
    [layerReader "pali.blk.0.attn_norm.weight" 1, layerReader "pali.blk.0.attn_q.weight" 2]) := by
  have htensors : layerBase.tensors.mapM buildTensor = some
      [layerReader "pali.blk.0.attn_norm.weight" 1, layerReader "pali.blk.0.attn_q.weight" 2] := by
    rw [layerBase, List.mapM_cons, List.mapM_cons, buildTensor_normTensor, buildTensor_normTensor]
    rfl
  rw [ggufReader, readerTensors, htensors]
  rfl

theorem read_layerLlm : ggufReader layerLlm = some (bookkeeping layerLlm,
    [layerReader "blk.0.attn_norm.weight" 3, layerReader "blk.0.attn_q.weight" 4]) := by
  have htensors : layerLlm.tensors.mapM buildTensor = some
      [layerReader "blk.0.attn_norm.weight" 3, layerReader "blk.0.attn_q.weight" 4] := by
    rw [layerLlm, List.mapM_cons, List.mapM_cons, buildTensor_normTensor, buildTensor_normTensor]
    rfl
  rw [ggufReader, readerTensors, htensors]
  rfl

def layerWritten : List WriterTensor :=
  [⟨"pali.blk.0.attn_norm.weight".toList, .f32, [1], [1, 0, 0, 0]⟩,
   ⟨"pali.blk.0.attn_q.weight".toList, .f32, [1], [4, 0, 0, 0]⟩]

theorem merge_layerBase : ∃ kvs, merge layerBase layerLlm [] false =
    some ⟨kvs, writeTiData 0 layerWritten, writeTensors layerWritten⟩ := by
  rw [merge, read_layerBase, read_layerLlm]
  exact ⟨_, rfl⟩

theorem merge_patches_layer : ∃ out, merge layerBase layerLlm [] false = some out ∧
    normTensor "pali.blk.0.attn_q.weight" 4 ∈ out.tensors := by
  obtain ⟨kvs, h⟩ := merge_layerBase
  have hexp : ∀ u ∈ layerLlm.tensors, ∃ name ∈ exportedNames, u.name = encodeUtf8 name := by
    intro u hu
    simp only [layerLlm, List.mem_cons, List.not_mem_nil, or_false] at hu
    rcases hu with rfl | rfl
    · exact ⟨"blk.0.attn_norm.weight".toList, by decide, rfl⟩
    · exact ⟨"blk.0.attn_q.weight".toList, by decide, rfl⟩
  have hall := (merge_patches h).2 hexp (normTensor "blk.0.attn_q.weight" 4) (by simp [layerLlm])
    "blk.0.attn_q.weight".toList rfl
  obtain ⟨-, -, hfile⟩ := hall.2 "pali.blk.0.attn_q.weight".toList (by decide)
  exact ⟨_, h, hfile (normTensor "pali.blk.0.attn_q.weight" 2) (by simp [layerBase]) rfl⟩

/-- The norm of the LLM file has the name that the base's norm is mapped to, and stays out. -/
theorem norm_not_patched : ∃ out, merge layerBase layerLlm [] false = some out ∧
    normTensor "pali.blk.0.attn_norm.weight" 1 ∈ layerBase.tensors ∧
    paliNameToLlm "pali.blk.0.attn_norm.weight".toList = some "blk.0.attn_norm.weight".toList ∧
    normTensor "blk.0.attn_norm.weight" 3 ∈ layerLlm.tensors ∧
    normTensor "pali.blk.0.attn_norm.weight" 3 ∉ out.tensors := by
  obtain ⟨kvs, h⟩ := merge_layerBase
  refine ⟨_, h, .head _, by decide, .head _, ?_⟩
  have htensors : (WrittenFile.mk kvs (writeTiData 0 layerWritten)
      (writeTensors layerWritten)).tensors =
        [normTensor "pali.blk.0.attn_norm.weight" 1, normTensor "pali.blk.0.attn_q.weight" 4] := by
    rfl
  rw [htensors]
  decide

end ActQuant.Pi05
