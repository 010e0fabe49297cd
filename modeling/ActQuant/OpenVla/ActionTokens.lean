import ActQuant.OpenVla.Llm
import ActQuant.Lib.Lists

namespace ActQuant.OpenVla
open ActQuant.Lib

section Process

/-- The members of `OpenvlaActionProcessor`. -/
structure ActionProcessor where
  binCenters : List ℚ
  actionHigh : List ℚ
  actionLow : List ℚ

/-- `init_bin_centers`. -/
def initBinCenters : List ℚ :=
  let start : ℚ := -1
  let stop : ℚ := 1
  let n : Nat := 256
  let step := (stop - start) / (n - 1 : Nat)
  let bins (i : Nat) : ℚ := start + i * step
  (List.range (n - 1)).map fun i => (bins i + bins (i + 1)) / 2

/-- The processor as it is constructed. -/
def ActionProcessor.init : ActionProcessor where
  binCenters := initBinCenters
  actionHigh := [0.8464285731315613, 0.84375, 0.9375, 0.08142857253551483, 0.14892856776714325,
    0.0867857113480568, 1]
  actionLow := [-0.5383928418159485, -0.8758928775787354, -0.9375, -0.06964285671710968,
    -0.11678571254014969, -0.15964286029338837, 0]

def actionMask : List Bool := [true, true, true, true, true, true, false]

/-- The bin of a token. -/
def ActionProcessor.bin (p : ActionProcessor) (token : Int) : Int :=
  min (max token 0) (p.binCenters.length - 1 : Nat)

/-- The un-normalised value, for the dimensions of the mask. -/
def unnormalize (high low : ℚ) (mask : Bool) (normalized : ℚ) : ℚ :=
  if mask then 1 / 2 * (normalized + 1) * (high - low + 1 / 10 ^ 8) + low else normalized

/-- The value at a place of the action, if what it is computed from exists. -/
def ActionProcessor.actionAt (p : ActionProcessor) (normalizedActions : List ℚ) (i : Nat) :
    Option ℚ := do
  let normalized ← normalizedActions[i]?
  let high ← p.actionHigh[i]?
  let low ← p.actionLow[i]?
  let mask ← actionMask[i]?
  pure (unnormalize high low mask normalized)

/-- `process`: the output, unless something is read that does not exist. -/
def ActionProcessor.process (p : ActionProcessor) (predictedActionTokenIds : List Int) :
    Option (List ℚ) :=
  ((predictedActionTokenIds.map p.bin).mapM fun bin => p.binCenters[bin.toNat]?).bind
    fun normalizedActions => (List.range 7).mapM (p.actionAt normalizedActions)

end Process

section Bins

/-- The centre of the bin of a token, -1 + (2 * bin + 1) / 255. -/
def binCenter (token : Int) : ℚ := -1 + (2 * (min (max token 0) 254 : Int) + 1) / 255

theorem length_initBinCenters : initBinCenters.length = 255 :=
  (List.length_map _).trans List.length_range

theorem getElem?_initBinCenters {i : Nat} (h : i < 255) :
    initBinCenters[i]? = some (-1 + (2 * (i : ℚ) + 1) / 255) := by
  rw [initBinCenters, List.getElem?_map, List.getElem?_range h, Option.map_some]
  refine congrArg some ?_
  norm_num
  ring

theorem bin_init (token : Int) : ActionProcessor.init.bin token = min (max token 0) 254 := by
  have hlen : ActionProcessor.init.binCenters.length = 255 := length_initBinCenters
  rw [ActionProcessor.bin, hlen, Nat.add_one_sub_one, Nat.cast_ofNat]

/-- Every token has a bin that exists. -/
theorem binCenters_bin (token : Int) :
    ActionProcessor.init.binCenters[(ActionProcessor.init.bin token).toNat]? =
      some (binCenter token) := by
  rw [bin_init]
  have hlt : (min (max token 0) 254).toNat < 255 := by omega
  have hcast : ((min (max token 0) 254).toNat : Int) = min (max token 0) 254 := by omega
  have hrat : ((min (max token 0) 254).toNat : ℚ) = ((min (max token 0) 254 : Int) : ℚ) := by
    rw [← hcast, Int.cast_natCast]
    rfl
  change initBinCenters[(min (max token 0) 254).toNat]? = _
  rw [getElem?_initBinCenters hlt, binCenter, hrat]

/-- What `process` makes of tokens, the first seven of which it reads. -/
theorem process_init (tokens : List Int) :
    ActionProcessor.init.process tokens =
      (List.range 7).mapM (ActionProcessor.init.actionAt (tokens.map binCenter)) := by
  have hcenters : (tokens.map ActionProcessor.init.bin).mapM
      (fun bin => ActionProcessor.init.binCenters[bin.toNat]?) = some (tokens.map binCenter) := by
    rw [List.mapM_map]
    exact mapM_eq_some_map fun token _ => binCenters_bin token
  rw [ActionProcessor.process, hcenters, Option.bind_some]

/-- The un-normalised bin centre of a token at a place of the action. -/
def actionValue (i : Nat) (token : Int) : ℚ :=
  unnormalize (ActionProcessor.init.actionHigh.getD i 0) (ActionProcessor.init.actionLow.getD i 0)
    (actionMask.getD i false) (binCenter token)

theorem actionAt_init (tokens : List Int) (hi : i < 7) :
    ActionProcessor.init.actionAt (tokens.map binCenter) i = tokens[i]?.map (actionValue i) := by
  have hhigh := getElem?_eq_some_getD 0 (show i < ActionProcessor.init.actionHigh.length from hi)
  have hlow := getElem?_eq_some_getD 0 (show i < ActionProcessor.init.actionLow.length from hi)
  have hmask := getElem?_eq_some_getD false (show i < actionMask.length from hi)
  rw [ActionProcessor.actionAt, List.getElem?_map, hhigh, hlow, hmask]
  cases tokens[i]? <;> rfl

theorem process_of_length (h : tokens.length = 7) :
    ActionProcessor.init.process tokens = some (tokens.mapIdx actionValue) := by
  have hvalue : ∀ i ∈ List.range 7, ActionProcessor.init.actionAt (tokens.map binCenter) i =
      some (actionValue i (tokens.getD i 0)) := by
    intro i hi
    rw [List.mem_range] at hi
    rw [actionAt_init tokens hi, getElem?_eq_some_getD 0 (by omega), Option.map_some]
  rw [process_init, mapM_eq_some_map hvalue]
  refine congrArg some (List.ext_getElem? fun i => ?_)
  rw [List.getElem?_map, List.getElem?_mapIdx]
  by_cases hi : i < 7
  · rw [List.getElem?_range hi, Option.map_some, getElem?_eq_some_getD 0 (by omega),
      Option.map_some]
  · rw [List.getElem?_eq_none (by rw [List.length_range]; omega),
      List.getElem?_eq_none (by omega)]
    rfl

theorem process_isSome_iff (tokens : List Int) :
    (ActionProcessor.init.process tokens).isSome = true ↔ 7 ≤ tokens.length := by
  rw [process_init]
  obtain hlt | hle := Nat.lt_or_ge tokens.length 7
  · have hnone : ActionProcessor.init.actionAt (tokens.map binCenter) tokens.length = none := by
      rw [actionAt_init tokens hlt, List.getElem?_eq_none (Nat.le_refl _), Option.map_none]
    rw [mapM_eq_none (List.mem_range.2 hlt) hnone]
    exact iff_of_false Bool.false_ne_true (by omega)
  · refine iff_of_true ?_ hle
    have hsome : ∀ i ∈ List.range 7,
        ∃ value, ActionProcessor.init.actionAt (tokens.map binCenter) i = some value := by
      intro i hi
      rw [List.mem_range] at hi
      rw [actionAt_init tokens hi, getElem?_eq_some_getD 0 (by omega)]
      exact ⟨_, rfl⟩
    obtain ⟨values, hvalues⟩ := exists_mapM hsome
    rw [hvalues]
    rfl

end Bins

section Generated
variable {M F : Type} {L : Llama M F} {llm : Llm F}

theorem triple_generateStep (xs : List Nat) (r : List Int × List (List F)) (step : Nat) :
    Triple (fun _ => r.1.length + (step :: xs).length = numNewTokens) (generateStep L llm r step)
      (fun r _ => r.1.length + xs.length = numNewTokens) fun _ => True := by
  refine triple_of_prop fun hlen => ?_
  refine triple_bind (triple_true _) fun newTokenId => triple_bind (triple_true _) fun _ => ?_
  refine triple_bind (triple_true _) fun allHiddenStates => triple_pure fun _ _ => ?_
  rw [List.length_append, List.length_singleton, ← hlen, List.length_cons]
  omega

/-- What `generate` returns is one token, which the reverse mapping leaves alone. -/
theorem triple_generate (prompt : List Char) (imgEmb : List F) (nImgTokens : Nat)
    (output : List F) (useHistory : Bool) :
    Triple (fun _ => True) (generate L llm prompt imgEmb nImgTokens output useHistory)
      (fun r _ => r.1.length = 1) fun _ => True := by
  rw [generate]
  refine triple_bind (triple_true _) fun _ => triple_bind (triple_true _) fun _ => ?_
  refine triple_bind (Q := fun _ _ => True) (triple_true _) fun allHiddenStates => ?_
  refine triple_bind (Q := fun r _ => r.1.length + 0 = numNewTokens) ?_ fun r => ?_
  · intro s r s' _ hs
    exact triple_foldlM (I := fun xs r _ => r.1.length + xs.length = numNewTokens)
      (fun step xs r => triple_generateStep xs r step) ([], allHiddenStates) s r s'
      (Nat.zero_add _) hs
  · refine triple_of_prop fun hlen => triple_ite (fun _ => triple_pure fun _ _ => hlen) fun _ =>
      triple_pure fun _ _ => ?_
    rw [reverseMapping, if_neg (by rw [← Nat.add_zero r.1.length, hlen]; decide)]
    exact hlen

/-- The processor is in range for at least seven tokens, and for seven it has the un-normalised bin
centre of each; what `generate` returns is never so many. -/
theorem process_generate (prompt : List Char) (imgEmb : List F) (nImgTokens : Nat)
    (output : List F) (useHistory : Bool) (ctx : LlamaContext M) :
    (∀ tokens, (ActionProcessor.init.process tokens).isSome = true ↔ 7 ≤ tokens.length) ∧
      (∀ tokens, tokens.length = 7 →
        ActionProcessor.init.process tokens = some (tokens.mapIdx actionValue)) ∧
      ∀ tokens out ctx', generate L llm prompt imgEmb nImgTokens output useHistory ctx =
        some (some (tokens, out), ctx') → ActionProcessor.init.process tokens = none := by
  refine ⟨process_isSome_iff, fun _ => process_of_length, fun tokens out ctx' h => ?_⟩
  have hlen : tokens.length = 1 := triple_generate _ _ _ _ _ ctx _ ctx' trivial h
  refine Option.not_isSome_iff_eq_none.1 fun hsome => ?_
  have hle := (process_isSome_iff tokens).1 hsome
  omega

theorem process_generate_toy : ∃ ctx',
    generate (toyLlama 0) (toyLlm 2) [] [1, 2] 1 [] false ⟨(), true, true⟩ =
      some (some ([4], [5, 6, 5, 6]), ctx') ∧ ActionProcessor.init.process [4] = none := by
  have hrun : generate (toyLlama 0) (toyLlm 2) [] [1, 2] 1 [] false ⟨(), true, true⟩ =
      some (some ([4], [5, 6, 5, 6]), ⟨(), true, false⟩) := by decide +kernel
  exact ⟨_, hrun, (process_generate [] [1, 2] 1 [] false ⟨(), true, true⟩).2.2 _ _ _ hrun⟩

/-- The token `generate` returns where no embeddings are required. -/
theorem process_oneToken : ∃ ctx',
    generate (toyLlama 0) { toyLlm 2 with requireEmbeddings := false } [] [1, 2] 1 [] false
        ⟨(), true, true⟩ = some (some ([4], []), ctx') ∧
      ActionProcessor.init.process [4] = none :=
  ⟨⟨(), true, false⟩, by decide +kernel, by decide +kernel⟩

end Generated

end ActQuant.OpenVla
