import ActQuant.Hsic.AllocateResult
import ActQuant.Hsic.QuantizeCommand
import ActQuant.Quant.PresetKeeps
import Mathlib.Data.Char
import Mathlib.Data.List.Lex

namespace ActQuant.Hsic
open Lib Gguf Quant

/-- `main` of the allocator, from the scores on. -/
def allocateMain [DecidableEq ν] (pow2 : ℚ → ℚ) (T : Tensors ν) (baseType maxType : String)
    (targetBpw : ℚ) : Option (Allocation ν) := do
  let base ← quantByName pow2 baseType
  let max ← quantByName pow2 maxType
  greedyL2Allocate T (allowedTypes pow2 base max) targetBpw base.name

/-- Step 3 of the scripts: an argument for each tensor whose type is not the base type. -/
def extractOverrides (baseType : String) (assignments : List (List Char × String)) :
    List (List Char) :=
  ((assignments.insertionSort fun a b => a.1 ≤ b.1).filter (·.2 ≠ baseType)).map fun a =>
    tensorTypeArg a.1 a.2

/-- Step 4: the parameters of the quantiser when the base type is its preset. -/
def pipelineParams (baseType : String) (assignments : List (List Char × String)) :
    Except String Params :=
  match tryParseFtype baseType.toList with
  | none => .error s!"invalid ftype '{baseType}'"
  | some o => quantizeParams o.2 none none (extractOverrides baseType assignments)

def namedBlocks (assignments : List ((Nat × Kind) × String)) : List (List Char × String) :=
  assignments.map fun a => (blockName a.1.1 a.1.2, a.2)

/-- The bits that a type's blocks take for each weight. -/
def bitsPerWeight (t : GgmlType) : ℚ := ((8 * t.traits.typeSize : Nat) : ℚ) / t.blckSize

/-- `ggml_nelements`. -/
def nElements (t : Tensor) : Nat := t.ne0 * t.ne1 * t.ne2 * t.ne3

/-- Bits per weight of what was written for the named weights. -/
def writtenBpw (visits : List (Visit QuantizeState Tensor Decision)) (names : List (Nat × Kind)) :
    ℚ :=
  let written := visits.filter fun v => v.item.name ∈ names.map fun n => blockName n.1 n.2
  (written.map fun v => bitsPerWeight v.decision.type * (nElements v.item : ℚ)).sum /
    ((written.map fun v => nElements v.item).sum : Nat)

/-- The model holds every scored weight once, in the size that the allocator counts. -/
structure Scored (m : Model) (T : Tensors (Nat × Kind)) (tensors : List Tensor) : Prop where
  distinct : (tensors.map (·.name)).Nodup
  blocks : ∀ n ∈ T.names, ∃ t ∈ tensors, BlockTensor m t n.1 n.2 ∧ nElements t = T.getNParams n

/-- Every visited weight of the assignment got the type assigned to it. -/
def Realised (m : Model) (assignments : List ((Nat × Kind) × String))
    (visits : List (Visit QuantizeState Tensor Decision)) : Prop :=
  ∀ v ∈ visits, ∀ a ∈ assignments, BlockTensor m v.item a.1.1 a.1.2 →
    parseGgmlType a.2.toList = some v.decision.type

/-- Every visited weight of the assignment is one that the preset, where it was left to it, keeps
at the base type. -/
def LeftAlone (m : Model) (ftype : LlamaFtype) (baseType : String)
    (assignments : List ((Nat × Kind) × String))
    (visits : List (Visit QuantizeState Tensor Decision)) : Prop :=
  ∀ v ∈ visits, ∀ a ∈ assignments, BlockTensor m v.item a.1.1 a.1.2 →
    ∀ t, parseGgmlType a.2.toList = some t →
      EndsAs m v.before ftype v.item a.1.1 a.1.2 t (a.2 ≠ baseType)

section Allocation
variable {pow2 : ℚ → ℚ} [DecidableEq ν] {T : Tensors ν} {r : Allocation ν}

/-- What `main` returns gives every tensor a registered type, and reports their average. -/
theorem allocateMain_spec (h : allocateMain pow2 T baseType maxType targetBpw = some r) :
    ∃ base, quantByName pow2 baseType = some base ∧ ∃ type : ν → QuantType,
      (∀ n, type n ∈ quantTypesAll pow2) ∧
      r.assignments = T.names.map (fun n => (n, (type n).name)) ∧
      r.achievedBpw = (T.names.map fun n => (type n).bpw * (T.getNParams n : ℚ)).sum /
        T.totalParams := by
  obtain ⟨base, hbase, h⟩ := Option.bind_eq_some_iff.1 h
  obtain ⟨max, _, h⟩ := Option.bind_eq_some_iff.1 h
  have hinc : Increasing (allowedTypes pow2 base max) := deduplicateQuantMenu_increasing _ _
  have hmenu {q : QuantType} (hq : q ∈ allowedTypes pow2 base max) : q ∈ quantTypesAll pow2 :=
    List.mem_of_mem_filter (mem_of_mem_deduplicateQuantMenu hq)
  -- The base type is one of the menu, since the allocator found it there by name.
  have hmem : base ∈ allowedTypes pow2 base max := by
    have hr := h
    rw [greedyL2Allocate] at hr
    obtain ⟨found, hfound, _⟩ := Option.bind_eq_some_iff.1 hr
    rw [sortByBpw_of_increasing hinc] at hfound
    have hfoundMem := List.mem_of_find?_eq_some hfound
    have hname : found.name = base.name := by
      have hpred := List.find?_some hfound
      exact of_decide_eq_true hpred
    have hself := allowedTypes_registered pow2 base max found hfoundMem
    rw [hname, quantByName_name pow2 (quantByName_cases hbase).1] at hself
    exact Option.some.inj hself ▸ hfoundMem
  have hhead := allowedTypes_head pow2 base max hmem
  obtain ⟨r', hr', hassign, hachieved⟩ :=
    greedyL2Allocate_spec T hinc hhead targetBpw
  obtain rfl : r' = r := Option.some.inj (hr'.symm.trans h)
  refine ⟨base, hbase, _, ?_, hassign, hachieved⟩
  intro n
  exact hmenu (Problem.typeAt_mem (Problem.finalIdx_lt
    (P := T.problem (allowedTypes pow2 base max) base targetBpw) hhead n))

end Allocation

section Preset

/-- A name that the quantiser reads as a preset whose default type is quantised and coarse. -/
def ReadsAs (name : String) (ftype : LlamaFtype) (dt : GgmlType) : Prop :=
  (tryParseFtype name.toList).map (·.2) = some ftype ∧ defaultType ftype = some dt ∧
    dt.isQuantized = true ∧ Coarse dt

instance : Decidable (ReadsAs name ftype dt) := inferInstanceAs (Decidable (_ ∧ _ ∧ _ ∧ _))

/-- A base type's name is a preset, and a registered type's own name is the preset of that type. -/
theorem readsAs_of_baseType {pow2 : ℚ → ℚ} (h : quantByName pow2 baseType = some base) :
    ∃ ftype dt, ReadsAs baseType ftype dt ∧ ∀ q ∈ quantTypesAll pow2, q.name = baseType →
      q.ggmlType.bind presetFtype = some ftype := by
  have hown : ∀ q ∈ quantTypesAll fun _ => 0, ∃ o ∈ quantOptions, ∃ dt ∈ GgmlType.all,
      ReadsAs q.name o.2 dt ∧ q.ggmlType.bind presetFtype = some o.2 := by
    decide +kernel
  have halias : ∀ a ∈ presetAliases, ∃ o ∈ quantOptions, ∃ dt ∈ GgmlType.all,
      ReadsAs a.1 o.2 dt ∧ ∀ q ∈ quantTypesAll fun _ => 0, q.name ≠ a.1 := by
    decide +kernel
  obtain ⟨hbase, rfl | hname⟩ := quantByName_cases h
  · obtain ⟨q', hq', hname', _⟩ := exists_registered pow2 (fun _ => 0) hbase
    obtain ⟨o, _, dt, _, hreads, hpreset⟩ := hown q' hq'
    rw [hname'] at hreads
    refine ⟨o.2, dt, hreads, ?_⟩
    intro q _ hq
    rw [QuantType.ggmlType, hq, ← hname']
    exact hpreset
  · obtain ⟨o, _, dt, _, hreads, hno⟩ := halias _ hname
    refine ⟨o.2, dt, hreads, ?_⟩
    intro q hq hqname
    obtain ⟨q', hq', hname', _⟩ := exists_registered pow2 (fun _ => 0) hq
    exact absurd (hname'.trans hqname) (hno q' hq')

theorem registered_type {pow2 : ℚ → ℚ} (h : q ∈ quantTypesAll pow2) :
    ∃ t, q.ggmlType = some t ∧ (presetFtype t).isSome = true ∧ bitsPerWeight t = q.bpw := by
  have hall : ∀ q ∈ quantTypesAll fun _ => 0, ∃ t ∈ GgmlType.all,
      q.ggmlType = some t ∧ (presetFtype t).isSome = true ∧ bitsPerWeight t = q.bpw := by
    decide +kernel
  obtain ⟨q', hq', hname, hbpw⟩ := exists_registered pow2 (fun _ => 0) h
  obtain ⟨t, _, ht, hpreset, hbits⟩ := hall q' hq'
  refine ⟨t, ?_, hpreset, hbits.trans hbpw⟩
  rw [QuantType.ggmlType, ← hname]
  exact ht

end Preset

section Run
variable {pow2 : ℚ → ℚ} {T : Tensors (Nat × Kind)} {r : Allocation (Nat × Kind)}
  {type : Nat × Kind → QuantType}

theorem pipelineParams_eq (htype : ∀ n, type n ∈ quantTypesAll pow2)
    (hreads : ReadsAs baseType ftype dt) (names : List (Nat × Kind)) :
    ∃ os, pipelineParams baseType (namedBlocks (names.map fun n => (n, (type n).name))) =
        .ok ⟨ftype, none, none, true, false, false, os⟩ ∧
      Overrides ((names.map fun n => (n, type n)).filter (·.2.name ≠ baseType)) os := by
  obtain ⟨o, ho, rfl⟩ := Option.map_eq_some_iff.1 hreads.1
  let assigned : BlockAssignment := (names.map fun n => (n, type n)).filter (·.2.name ≠ baseType)
  have hmenu : ∀ a ∈ assigned, a.2 ∈ quantTypesAll pow2 := by
    intro a ha
    obtain ⟨n, _, rfl⟩ := List.mem_map.1 (List.mem_of_mem_filter ha)
    exact htype n
  have hperm : (((namedBlocks (names.map fun n => (n, (type n).name))).insertionSort
      fun a b => a.1 ≤ b.1).filter (·.2 ≠ baseType)).Perm (BlockAssignment.named assigned) := by
    have hsorted := (List.perm_insertionSort (fun a b : List Char × String => a.1 ≤ b.1)
      (namedBlocks (names.map fun n => (n, (type n).name)))).filter (·.2 ≠ baseType)
    have hnamed : (namedBlocks (names.map fun n => (n, (type n).name))).filter (·.2 ≠ baseType) =
        BlockAssignment.named assigned := by
      simp only [namedBlocks, BlockAssignment.named, assigned, List.filter_map, List.map_map]
      rfl
    exact hnamed ▸ hsorted
  obtain ⟨os, hparams, hos⟩ := quantizeParams_of_args hmenu hperm o.2 none none
  refine ⟨os, ?_, hos⟩
  rw [pipelineParams, ho]
  exact hparams

/-- The quantiser realises the assignment exactly where its preset leaves the rest alone. -/
theorem realised_iff_leftAlone {m : Model} {hasImatrix : Bool}
    {convert : Tensor → Decision → Except String Unit} {tensors : List Tensor}
    {names : List (Nat × Kind)} (hnames : names.Nodup)
    (htype : ∀ n, type n ∈ quantTypesAll pow2) (hreads : ReadsAs baseType ftype dt)
    (hpreset : ∀ q ∈ quantTypesAll pow2, q.name = baseType →
      q.ggmlType.bind presetFtype = some ftype)
    (hos : Overrides ((names.map fun n => (n, type n)).filter (·.2.name ≠ baseType)) os) :
    Realised m (names.map fun n => (n, (type n).name)) (llamaModelQuantize dotSearch convert m
        ⟨ftype, none, none, true, false, false, os⟩ hasImatrix tensors).1 ↔
      LeftAlone m ftype baseType (names.map fun n => (n, (type n).name))
        (llamaModelQuantize dotSearch convert m ⟨ftype, none, none, true, false, false, os⟩
          hasImatrix tensors).1 := by
  obtain ⟨_, hdef, hquant, hcoarse⟩ := hreads
  have hkeys : (((names.map fun n => (n, type n)).filter (·.2.name ≠ baseType)).map
      (·.1)).Nodup := by
    have hall : ((names.map fun n => (n, type n)).map (·.1)).Nodup := by
      rw [List.map_map]
      exact (List.map_id names).symm ▸ hnames
    exact hall.sublist (List.filter_sublist.map _)
  apply forall₂_congr
  intro v hv
  apply forall₂_congr
  intro a ha
  apply forall_congr'
  intro hblock
  obtain ⟨n, hn, rfl⟩ := List.mem_map.1 ha
  obtain ⟨t, ht, hsome, _⟩ := registered_type (htype n)
  have hparse : parseGgmlType (type n).name.toList = some t := ht
  obtain ⟨hcounts, s', hstep⟩ := visit_step hdef hv
  simp only [hparse, Option.some.injEq, forall_eq']
  rw [eq_comm]
  apply decideTensor_endsAs_iff hblock hcounts rfl rfl hquant hdef hcoarse hsome ?_ ?_ hstep
  · intro hne
    rw [hblock.name]
    apply hos.lastMatch_listed hkeys (a := (n, type n)) ?_ ht
    exact List.mem_filter.2 ⟨List.mem_map_of_mem hn, decide_eq_true hne⟩
  · intro heq
    rw [hblock.name]
    refine ⟨hos.lastMatch_unlisted ?_, ?_⟩
    · intro hmem
      obtain ⟨b, hb, hbn⟩ := List.mem_map.1 hmem
      obtain ⟨hb, hbne⟩ := List.mem_filter.1 hb
      obtain ⟨n', _, rfl⟩ := List.mem_map.1 hb
      obtain rfl : n' = n := hbn
      exact heq (of_decide_eq_true hbne)
    · have hbase := hpreset _ (htype n) (not_not.1 heq)
      rw [ht] at hbase
      exact hbase

theorem writtenBpw_of_realised {m : Model} {tensors : List Tensor}
    {visits : List (Visit QuantizeState Tensor Decision)}
    (htype : ∀ n, type n ∈ quantTypesAll pow2) (hitems : visits.map (·.item) = tensors)
    (hscored : Scored m T tensors)
    (hreal : Realised m (T.names.map fun n => (n, (type n).name)) visits) :
    writtenBpw visits T.names =
      (T.names.map fun n => (type n).bpw * (T.getNParams n : ℚ)).sum / T.totalParams := by
  let written := visits.filter fun v => v.item.name ∈ T.names.map fun n => blockName n.1 n.2
  have hdistinct : (visits.map fun v => v.item.name).Nodup := by
    have hnd := hscored.distinct
    rw [← hitems, List.map_map] at hnd
    exact hnd
  have hblocks : (T.names.map fun n => blockName n.1 n.2).Nodup := by
    apply T.nodup.map
    intro n n' h
    exact Prod.ext_iff.2 (blockName_injective h)
  have hitem {t : Tensor} (ht : t ∈ tensors) : ∃ v ∈ visits, v.item = t :=
    List.mem_map.1 (hitems ▸ ht)
  have hkeys : (written.map fun v => v.item.name).Perm
      (T.names.map fun n => blockName n.1 n.2) := by
    apply (List.perm_ext_iff_of_nodup (hdistinct.sublist (List.filter_sublist.map _)) hblocks).2
    intro c
    constructor
    · intro hc
      obtain ⟨v, hv, rfl⟩ := List.mem_map.1 hc
      exact of_decide_eq_true (List.mem_filter.1 hv).2
    · intro hc
      obtain ⟨n, hn, rfl⟩ := List.mem_map.1 hc
      obtain ⟨t, ht, hblock, _⟩ := hscored.blocks n hn
      obtain ⟨v, hv, rfl⟩ := hitem ht
      rw [← hblock.name] at hc ⊢
      exact List.mem_map_of_mem (List.mem_filter.2 ⟨hv, decide_eq_true hc⟩)
  have hat : ∀ v ∈ written, ∀ n ∈ T.names, v.item.name = blockName n.1 n.2 →
      nElements v.item = T.getNParams n ∧ bitsPerWeight v.decision.type = (type n).bpw := by
    intro v hv n hn hname
    have hv := List.mem_of_mem_filter hv
    obtain ⟨t, ht, hblock, hsize⟩ := hscored.blocks n hn
    obtain ⟨v', hv', rfl⟩ := hitem ht
    obtain rfl : v' = v :=
      List.inj_on_of_nodup_map hdistinct hv' hv (hblock.name.trans hname.symm)
    obtain ⟨t, ht, _, hbits⟩ := registered_type (htype n)
    have hgot := hreal v' hv' _ (List.mem_map_of_mem hn) hblock
    rw [← hbits, Option.some.inj (hgot.symm.trans ht)]
    exact ⟨hsize, rfl⟩
  have hbits := sum_map_of_perm_keys (f := fun v => bitsPerWeight v.decision.type *
      (nElements v.item : ℚ)) (g := fun n => (type n).bpw * (T.getNParams n : ℚ)) hkeys hblocks
    fun v hv n hn hname => by rw [(hat v hv n hn hname).1, (hat v hv n hn hname).2]
  have hsizes := sum_map_of_perm_keys (f := fun v => nElements v.item) (g := T.getNParams) hkeys
    hblocks fun v hv n hn hname => (hat v hv n hn hname).1
  simp only [writtenBpw]
  rw [hbits, hsizes, Tensors.totalParams]

end Run

/-- The pipeline realises an allocation exactly where the preset leaves every weight that is not
overridden at the base type; the file then has the bits per weight that the allocator reported. -/
theorem pipeline_realises_iff {pow2 : ℚ → ℚ} {T : Tensors (Nat × Kind)}
    {r : Allocation (Nat × Kind)}
    (h : allocateMain pow2 T baseType maxType targetBpw = some r) :
    ∃ p, pipelineParams baseType (namedBlocks r.assignments) = .ok p ∧
      ∀ m hasImatrix convert tensors,
        let run := llamaModelQuantize dotSearch convert m p hasImatrix tensors
        (Realised m r.assignments run.1 ↔ LeftAlone m p.ftype baseType r.assignments run.1) ∧
        (∀ s, run.2 = .ok s → run.1.map (·.item) = tensors ∧
          (Realised m r.assignments run.1 → Scored m T tensors →
            writtenBpw run.1 T.names = r.achievedBpw)) ∧
        ((∀ t ∈ tensors, ∃ l k, BlockMatrix m t l k) → (∀ t d, convert t d = .ok ()) →
          ∃ s, run.2 = .ok s) := by
  obtain ⟨base, hbase, type, htype, hassign, hachieved⟩ := allocateMain_spec h
  obtain ⟨ftype, dt, hreads, hpreset⟩ := readsAs_of_baseType hbase
  obtain ⟨os, hparams, hos⟩ := pipelineParams_eq htype hreads T.names
  rw [← hassign] at hparams
  refine ⟨_, hparams, ?_⟩
  intro m hasImatrix convert tensors run
  rw [hassign, hachieved]
  refine ⟨realised_iff_leftAlone T.nodup htype hreads hpreset hos, ?_, ?_⟩
  · intro s hs
    refine ⟨items_of_ok hs, ?_⟩
    intro hreal hscored
    exact writtenBpw_of_realised htype (items_of_ok hs) hscored hreal
  · intro hblocks hconvert
    exact quantize_completes hreads.2.1 hreads.2.2.1 rfl rfl hblocks hconvert

section Instances

/-- `2 ** (-2 * bpw)` where it is a fraction, for `Q4_K` and `Q5_K`. -/
def kNoise (x : ℚ) : ℚ := if x = -9 then 1 / 512 else if x = -11 then 1 / 2048 else 0

def attnV : Tensors (Nat × Kind) where
  names := [(0, .attnV)]
  nodup := by decide
  nonempty := by decide
  scores _ := 1
  getNParams _ := 65536
  getNParams_pos _ := by decide
  getLayer n := n.1

def attnVTensor : Tensor := ⟨"blk.0.attn_v.weight".toList, .bf16, 256, 256, 1, 1⟩

theorem pipeline_realises_iff_attnV :
    ∃ r, allocateMain kNoise attnV "Q4_K" "Q5_K" 6 = some r ∧
      ∃ p, pipelineParams "Q4_K" (namedBlocks r.assignments) = .ok p ∧
        ∀ m hasImatrix convert tensors,
          let run := llamaModelQuantize dotSearch convert m p hasImatrix tensors
          (Realised m r.assignments run.1 ↔ LeftAlone m p.ftype "Q4_K" r.assignments run.1) ∧
          (∀ s, run.2 = .ok s → run.1.map (·.item) = tensors ∧
            (Realised m r.assignments run.1 → Scored m attnV tensors →
              writtenBpw run.1 attnV.names = r.achievedBpw)) ∧
          ((∀ t ∈ tensors, ∃ l k, BlockMatrix m t l k) → (∀ t d, convert t d = .ok ()) →
            ∃ s, run.2 = .ok s) := by
  have hr : allocateMain kNoise attnV "Q4_K" "Q5_K" 6 =
      some ⟨[((0, .attnV), "Q5_K")], 11 / 2, (1 / 2048) ^ 2⟩ := by
    decide +kernel
  exact ⟨_, hr, pipeline_realises_iff hr⟩

/-- At a target that leaves it at `Q4_K`, the preset still gives the value projection `Q6_K`. -/
theorem preset_upgrades_attnV :
    ∃ r p, allocateMain kNoise attnV "Q4_K" "Q5_K" (9 / 2) = some r ∧
      pipelineParams "Q4_K" (namedBlocks r.assignments) = .ok p ∧
      ¬ Realised tinyLlama r.assignments
        (llamaModelQuantize dotSearch (fun _ _ => .ok ()) tinyLlama p true [attnVTensor]).1 := by
  refine ⟨⟨[((0, .attnV), "Q4_K")], 9 / 2, 0⟩, ⟨.q4_K_M, none, none, true, false, false, []⟩,
    by decide +kernel, by decide +kernel, ?_⟩
  intro hreal
  have hrun : ((llamaModelQuantize dotSearch (fun _ _ => .ok ()) tinyLlama
      ⟨.q4_K_M, none, none, true, false, false, []⟩ true [attnVTensor]).1.map fun v =>
        (v.item.name, v.decision.type)) = [(blockName 0 .attnV, .q6_K)] := by
    decide +kernel
  have hmem : (blockName 0 .attnV, GgmlType.q6_K) ∈ [(blockName 0 .attnV, GgmlType.q6_K)] :=
    .head _
  rw [← hrun] at hmem
  obtain ⟨v, hv, heq⟩ := List.mem_map.1 hmem
  obtain ⟨hname, htype⟩ := Prod.ext_iff.1 heq
  have hgot := hreal v hv ((0, .attnV), "Q4_K") (.head _) ⟨hname, by decide⟩
  rw [show v.decision.type = .q6_K from htype] at hgot
  exact absurd hgot (by decide +kernel)

end Instances
end ActQuant.Hsic
