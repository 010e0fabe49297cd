import ActQuant.Hsic.QuantTypes
import ActQuant.Quant.BlockChoice

namespace ActQuant.Hsic
open Lib Gguf Quant

def tensorTypeArg (name : List Char) (type : String) : List Char := name ++ '=' :: type.toList

/-- The arguments that `print_quantize_command` prints, one for each tensor, by falling score. -/
def printQuantizeCommand (scores : List Char → ℚ) (assignments : List (List Char × String)) :
    List (List Char) :=
  (assignments.insertionSort fun a b => scores b.1 ≤ scores a.1).map fun a =>
    tensorTypeArg a.1 a.2

/-- The parameters that `main` of the quantiser sets for a preset and such arguments. -/
def quantizeParams (ftype : LlamaFtype) (tokenEmbeddingType outputTensorType : Option GgmlType)
    (args : List (List Char)) : Except String Params :=
  (args.mapM parseTensorType).map fun tensorTypes =>
    { ftype, outputTensorType, tokenEmbeddingType, quantizeOutputTensor := true,
      onlyCopy := false, pure := false, tensorTypes }

abbrev BlockAssignment := List ((Nat × Kind) × QuantType)

/-- The assignment as the allocator keeps it, by tensor name and type name. -/
def BlockAssignment.named (assigned : BlockAssignment) : List (List Char × String) :=
  assigned.map fun a => (blockName a.1.1 a.1.2, a.2.name)

/-- The type of the quantiser that a registered type names. -/
def QuantType.ggmlType (q : QuantType) : Option GgmlType := parseGgmlType q.name.toList

section Parse

theorem toLower_of_not_isUpper {c : Char} (h : c.isUpper = false) : c.toLower = c := by
  apply dif_neg
  intro hrange
  have hupper : c.isUpper = true := decide_eq_true hrange
  rw [h] at hupper
  cases hupper

theorem mem_blockName (h : c ∈ blockName l k) : c ≠ '=' ∧ c.isUpper = false := by
  have hplain {text : List Char} (hall : (text.all fun c => c != '=' && !c.isUpper) = true)
      (hc : c ∈ text) : c ≠ '=' ∧ c.isUpper = false := by
    have hc := List.all_eq_true.1 hall c hc
    simpa only [Bool.and_eq_true, bne_iff_ne, Bool.not_eq_true'] using hc
  rcases List.mem_append.1 h with h | h
  · exact hplain (by decide) h
  rcases List.mem_append.1 h with h | h
  · have hdigit := isDigit_of_mem_decimal h
    refine ⟨?_, ?_⟩
    · rintro rfl
      exact absurd hdigit (by decide)
    · apply Bool.eq_false_iff.2
      intro hupper
      have hrange : 'A'.val ≤ c.val ∧ c.val ≤ 'Z'.val := of_decide_eq_true hupper
      simp only [Char.isDigit, ge_iff_le, Bool.and_eq_true, decide_eq_true_eq] at hdigit
      exact absurd (UInt32.le_trans hrange.1 hdigit.2) (by decide)
  · exact hplain (by cases k <;> decide) h

theorem parseTensorType_blockName (ht : parseGgmlType type.toList = some t)
    (hne : type.toList ≠ []) :
    parseTensorType (tensorTypeArg (blockName l k) type) = .ok ⟨blockName l k, t⟩ := by
  have hname : ∀ c ∈ blockName l k, decide (c ≠ '=') = true := fun c hc =>
    decide_eq_true (mem_blockName hc).1
  have hbefore : (tensorTypeArg (blockName l k) type).takeWhile (· ≠ '=') = blockName l k := by
    rw [tensorTypeArg, List.takeWhile_append_of_pos hname,
      List.takeWhile_cons_of_neg (by decide), List.append_nil]
  have hafter : (tensorTypeArg (blockName l k) type).dropWhile (· ≠ '=') =
      '=' :: type.toList := by
    rw [tensorTypeArg, List.dropWhile_append_of_pos hname,
      List.dropWhile_cons_of_neg (by decide)]
  have hlower : (blockName l k).map Char.toLower = blockName l k := by
    have hid : (blockName l k).map Char.toLower = (blockName l k).map id := by
      apply List.map_congr_left
      intro c hc
      exact toLower_of_not_isUpper (mem_blockName hc).2
    rw [hid, List.map_id]
  have hnil : blockName l k ≠ [] := by
    intro h
    have hhead : 'b' ∈ blockName l k := List.mem_append_left _ (by decide)
    rw [h] at hhead
    cases hhead
  simp only [parseTensorType, hbefore, hafter, hlower, if_neg hnil, if_neg hne, ht]

theorem ggmlType_of_registered (pow2 : ℚ → ℚ) (h : q ∈ quantTypesAll pow2) :
    ∃ t, q.ggmlType = some t ∧ q.name.toList ≠ [] := by
  have hall : ∀ q ∈ quantTypesAll fun _ => 0,
      (parseGgmlType q.name.toList).isSome = true ∧ q.name.toList ≠ [] := by
    decide
  obtain ⟨q', hq', hname, _⟩ := exists_registered pow2 (fun _ => 0) h
  obtain ⟨hsome, hne⟩ := hall q' hq'
  rw [hname] at hsome hne
  obtain ⟨t, ht⟩ := Option.isSome_iff_exists.1 hsome
  exact ⟨t, ht, hne⟩

end Parse

section Overrides
variable {assigned : BlockAssignment} {os : List TensorQuantization}

/-- The overrides are the tensors of an assignment with their types, in whatever order. -/
def Overrides (assigned : BlockAssignment) (os : List TensorQuantization) : Prop :=
  ∀ o, o ∈ os ↔ ∃ a ∈ assigned, ∃ t, a.2.ggmlType = some t ∧ o = ⟨blockName a.1.1 a.1.2, t⟩

theorem dotSearch_ok (os : List TensorQuantization) (name : List Char) :
    ∀ o ∈ os, ∃ found, dotSearch o.name name = .ok found := fun _ _ => ⟨_, rfl⟩

theorem matched_blockName (t : GgmlType) :
    matched dotSearch (blockName l' k') ⟨blockName l k, t⟩ = true ↔ l = l' ∧ k = k' :=
  regexSearch_blockName

/-- A tensor of the assignment is matched by its own pattern and by no other. -/
theorem Overrides.lastMatch_listed (h : Overrides assigned os)
    (hkeys : (assigned.map (·.1)).Nodup) (ha : a ∈ assigned) (ht : a.2.ggmlType = some t) :
    lastMatch dotSearch (blockName a.1.1 a.1.2) os = some t := by
  have ho : ⟨blockName a.1.1 a.1.2, t⟩ ∈ os := (h _).2 ⟨a, ha, t, ht, rfl⟩
  apply lastMatch_eq_some ho ((matched_blockName t).2 ⟨rfl, rfl⟩)
  intro o' ho' hmatch
  obtain ⟨b, hb, u, hu, rfl⟩ := (h _).1 ho'
  have hkey : b.1 = a.1 := Prod.ext_iff.2 ((matched_blockName u).1 hmatch)
  have hba : b = a := List.inj_on_of_nodup_map hkeys hb ha hkey
  rw [hba, ht, Option.some.injEq] at hu
  exact hu.symm

theorem Overrides.lastMatch_unlisted (h : Overrides assigned os)
    (hno : (l, k) ∉ assigned.map (·.1)) : lastMatch dotSearch (blockName l k) os = none := by
  apply lastMatch_eq_none
  intro o ho
  obtain ⟨a, ha, u, _, rfl⟩ := (h _).1 ho
  apply Bool.eq_false_iff.2
  intro hmatch
  have hkey : a.1 = (l, k) := Prod.ext_iff.2 ((matched_blockName u).1 hmatch)
  exact hno (hkey ▸ List.mem_map_of_mem ha)

theorem quantizeParams_of_args {pow2 : ℚ → ℚ} {args : List (List Char × String)}
    (hmenu : ∀ a ∈ assigned, a.2 ∈ quantTypesAll pow2) (hargs : args.Perm assigned.named)
    (ftype : LlamaFtype) (emb out : Option GgmlType) :
    ∃ os, quantizeParams ftype emb out (args.map fun a => tensorTypeArg a.1 a.2) =
        .ok ⟨ftype, out, emb, true, false, false, os⟩ ∧ Overrides assigned os := by
  let read (arg : List Char × String) : TensorQuantization :=
    ⟨arg.1, (parseGgmlType arg.2.toList).getD .f32⟩
  have hof (a : (Nat × Kind) × QuantType) (ha : a ∈ assigned) :
      ∃ t, a.2.ggmlType = some t ∧ read (blockName a.1.1 a.1.2, a.2.name) =
        ⟨blockName a.1.1 a.1.2, t⟩ ∧
        parseTensorType (tensorTypeArg (blockName a.1.1 a.1.2) a.2.name) =
          .ok (read (blockName a.1.1 a.1.2, a.2.name)) := by
    obtain ⟨t, ht, hne⟩ := ggmlType_of_registered pow2 (hmenu a ha)
    have hread : read (blockName a.1.1 a.1.2, a.2.name) = ⟨blockName a.1.1 a.1.2, t⟩ := by
      have hparse : parseGgmlType a.2.name.toList = some t := ht
      simp only [read, hparse, Option.getD_some]
    exact ⟨t, ht, hread, hread ▸ parseTensorType_blockName ht hne⟩
  have hmem {arg : List Char × String} (harg : arg ∈ args) :
      ∃ a ∈ assigned, (blockName a.1.1 a.1.2, a.2.name) = arg :=
    List.mem_map.1 (hargs.mem_iff.1 harg)
  have hparsed : (args.map fun a => tensorTypeArg a.1 a.2).mapM parseTensorType =
      (.ok (args.map read) : Except String _) := by
    rw [List.mapM_map]
    apply mapM_eq_ok_map
    intro arg harg
    obtain ⟨a, ha, rfl⟩ := hmem harg
    obtain ⟨_, _, _, hparse⟩ := hof a ha
    exact hparse
  refine ⟨args.map read, by rw [quantizeParams, hparsed]; rfl, ?_⟩
  intro o
  constructor
  · intro ho
    obtain ⟨arg, harg, rfl⟩ := List.mem_map.1 ho
    obtain ⟨a, ha, rfl⟩ := hmem harg
    obtain ⟨t, ht, hread, _⟩ := hof a ha
    exact ⟨a, ha, t, ht, hread⟩
  · rintro ⟨a, ha, t, ht, rfl⟩
    obtain ⟨t', ht', hread, _⟩ := hof a ha
    have harg : (blockName a.1.1 a.1.2, a.2.name) ∈ args :=
      hargs.mem_iff.2 (List.mem_map_of_mem ha)
    rw [ht, Option.some.injEq] at ht'
    rw [ht', ← hread]
    exact List.mem_map_of_mem harg

theorem perm_printed (scores : List Char → ℚ) (assignments : List (List Char × String)) :
    (assignments.insertionSort fun a b => scores b.1 ≤ scores a.1).Perm assignments :=
  List.perm_insertionSort _ _

end Overrides

section Run
variable {m : Model} {hasImatrix : Bool} {convert : Tensor → Decision → Except String Unit}
  {tensors : List Tensor} {p : Params} {defaultTy : GgmlType}

theorem visit_step (hdef : defaultType p.ftype = some defaultTy)
    (hv : v ∈ (llamaModelQuantize dotSearch convert m p hasImatrix tensors).1) :
    LayerCounts m v.before ∧
      ∃ s', decideTensor dotSearch m p defaultTy v.before v.item = .ok (v.decision, s') := by
  rw [llamaModelQuantize, hdef] at hv
  obtain ⟨hcounts, _, hstep⟩ := visits_invariant (I := LayerCounts m)
    (fun hinv hs => hinv.of_sameTotals (decideTensor_sameTotals hs)) ⟨rfl, rfl, rfl⟩ hv
  exact ⟨hcounts, hstep⟩

theorem visit_block (hdef : defaultType p.ftype = some defaultTy)
    (hquant : defaultTy.isQuantized = true) (hcopy : p.onlyCopy = false) (hpure : p.pure = false)
    (hv : v ∈ (llamaModelQuantize dotSearch convert m p hasImatrix tensors).1)
    (hblock : BlockMatrix m v.item l k) :
    v.decision.type = (lastMatch dotSearch (blockName l k) p.tensorTypes).getD
      (blockChoice m v.before defaultTy p.ftype v.item.ne2 l k).1 := by
  obtain ⟨hcounts, s', hstep⟩ := visit_step hdef hv
  obtain ⟨d, qs', hdecide, htype⟩ := decideTensor_block dotSearch hblock hcounts hcopy
    hpure hquant (dotSearch_ok _ _)
  rw [hdecide] at hstep
  cases hstep
  rw [hblock.name] at htype
  exact htype

theorem items_of_ok (h : (llamaModelQuantize dotSearch convert m p hasImatrix tensors).2 = .ok s) :
    (llamaModelQuantize dotSearch convert m p hasImatrix tensors).1.map (·.item) = tensors := by
  rw [llamaModelQuantize] at h ⊢
  cases hdef : defaultType p.ftype with
  | none =>
    rw [hdef] at h
    cases h
  | some defaultTy =>
    rw [hdef] at h
    exact visits_items_of_ok h

theorem quantize_completes (hdef : defaultType p.ftype = some defaultTy)
    (hquant : defaultTy.isQuantized = true) (hcopy : p.onlyCopy = false) (hpure : p.pure = false)
    (hblocks : ∀ t ∈ tensors, ∃ l k, BlockMatrix m t l k)
    (hconvert : ∀ t d, convert t d = .ok ()) :
    ∃ s, (llamaModelQuantize dotSearch convert m p hasImatrix tensors).2 = .ok s := by
  rw [llamaModelQuantize, hdef]
  apply traverse_completes (I := LayerCounts m) _ ⟨rfl, rfl, rfl⟩
  intro s t hinv ht
  obtain ⟨l, k, hblock⟩ := hblocks t ht
  obtain ⟨d, qs', hdecide, _⟩ := decideTensor_block dotSearch hblock hinv hcopy
    hpure hquant (dotSearch_ok _ _)
  exact ⟨d, qs', hdecide, hinv.of_sameTotals (decideTensor_sameTotals hdecide), hconvert t d⟩

end Run

/-- Under a quantised preset the printed command gives every listed tensor its assigned type, in
any state and any order of visits. -/
theorem assignment_realised (pow2 : ℚ → ℚ) {assigned : BlockAssignment}
    (hkeys : (assigned.map (·.1)).Nodup) (hmenu : ∀ a ∈ assigned, a.2 ∈ quantTypesAll pow2)
    (hdef : defaultType ftype = some defaultTy) (hquant : defaultTy.isQuantized = true)
    (scores : List Char → ℚ) (emb out : Option GgmlType) :
    ∃ p, quantizeParams ftype emb out (printQuantizeCommand scores assigned.named) = .ok p ∧
      ∀ m hasImatrix convert tensors,
        (∀ v ∈ (llamaModelQuantize dotSearch convert m p hasImatrix tensors).1, ∀ a ∈ assigned,
          BlockMatrix m v.item a.1.1 a.1.2 → some v.decision.type = a.2.ggmlType) ∧
        (∀ s, (llamaModelQuantize dotSearch convert m p hasImatrix tensors).2 = .ok s →
          (llamaModelQuantize dotSearch convert m p hasImatrix tensors).1.map (·.item) =
            tensors) ∧
        ((∀ t ∈ tensors, ∃ l k, BlockMatrix m t l k) → (∀ t d, convert t d = .ok ()) →
          ∃ s, (llamaModelQuantize dotSearch convert m p hasImatrix tensors).2 = .ok s) := by
  obtain ⟨os, hparams, hos⟩ := quantizeParams_of_args hmenu (perm_printed scores assigned.named)
    ftype emb out
  refine ⟨_, hparams, ?_⟩
  intro m hasImatrix convert tensors
  refine ⟨?_, fun s hs => items_of_ok hs, fun hblocks hconvert =>
    quantize_completes hdef hquant rfl rfl hblocks hconvert⟩
  intro v hv a ha hblock
  obtain ⟨t, ht, _⟩ := ggmlType_of_registered pow2 (hmenu a ha)
  rw [visit_block hdef hquant rfl rfl hv hblock, hos.lastMatch_listed hkeys ha ht,
    Option.getD_some, ht]

def attnQ4K : BlockAssignment := [((0, .attnQ), .ofBpw (fun _ => 1) "Q4_K" (9 / 2) .kQuant)]

theorem assignment_realised_attnQ4K :
    ∃ p, quantizeParams .iq2_xs none none (printQuantizeCommand (fun _ => 0) attnQ4K.named) =
        .ok p ∧
      ∀ m hasImatrix convert tensors,
        (∀ v ∈ (llamaModelQuantize dotSearch convert m p hasImatrix tensors).1, ∀ a ∈ attnQ4K,
          BlockMatrix m v.item a.1.1 a.1.2 → some v.decision.type = a.2.ggmlType) ∧
        (∀ s, (llamaModelQuantize dotSearch convert m p hasImatrix tensors).2 = .ok s →
          (llamaModelQuantize dotSearch convert m p hasImatrix tensors).1.map (·.item) =
            tensors) ∧
        ((∀ t ∈ tensors, ∃ l k, BlockMatrix m t l k) → (∀ t d, convert t d = .ok ()) →
          ∃ s, (llamaModelQuantize dotSearch convert m p hasImatrix tensors).2 = .ok s) :=
  assignment_realised (fun _ => 1) (by decide) (by decide +kernel) rfl rfl (fun _ => 0)
    none none

/-- Under `F16` no override is looked at. -/
theorem unquantised_preset_ignores_overrides :
    ¬ ∀ p, quantizeParams .f16 none none (printQuantizeCommand (fun _ => 0) attnQ4K.named) =
        .ok p →
      ∀ v ∈ (llamaModelQuantize dotSearch (fun _ _ => .ok ()) tinyLlama p false
          [⟨"blk.0.attn_q.weight".toList, .bf16, 256, 256, 1, 1⟩]).1,
        some v.decision.type = (QuantType.ofBpw (fun _ => 1) "Q4_K" (9 / 2) .kQuant).ggmlType := by
  intro h
  have hrun := h ⟨.f16, none, none, true, false, false, [⟨"blk.0.attn_q.weight".toList, .q4_K⟩]⟩
    (by decide)
  revert hrun
  decide

end ActQuant.Hsic
