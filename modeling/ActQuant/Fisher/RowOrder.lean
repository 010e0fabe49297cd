import ActQuant.Gguf.ConvertLlama
import ActQuant.Quant.Imatrix

namespace ActQuant.Fisher
open Lib Gguf Quant

/-- `hf_name_to_gguf_name`. -/
def hfNameToGgufName (hfName : List Char) : List Char :=
  let name := if "model.".toList.isPrefixOf hfName then hfName.drop "model.".toList.length
    else hfName
  let name := replace "layers." "blk." name
  let name := replace "self_attn.q_proj" "attn_q" name
  let name := replace "self_attn.k_proj" "attn_k" name
  let name := replace "self_attn.v_proj" "attn_v" name
  let name := replace "self_attn.o_proj" "attn_output" name
  let name := replace "mlp.gate_proj" "ffn_gate" name
  let name := replace "mlp.up_proj" "ffn_up" name
  let name := replace "mlp.down_proj" "ffn_down" name
  replace "lm_head" "output" name

/-- `save_fisher_gguf`: each matrix under `.in_sum2`, with one count of 1. -/
def saveFisherGguf (fisherDiags : List (List Char × Ndarray ℚ)) : ImatrixFile :=
  fisherDiags.flatMap fun t =>
    [(t.1 ++ ".in_sum2".toList, t.2.map (max · 0)),
     (t.1 ++ ".counts".toList, ⟨[1, 1], [1], rfl⟩)]

/-- The file written for a checkpoint, given the matrices accumulated for its weights. -/
def fisherFile (d : LlamaDims) (fisher : Nat → Kind → Nat → Nat → ℚ) : ImatrixFile :=
  saveFisherGguf ((blockTensors d.nBlocks).map fun t =>
    (hfNameToGgufName (hfName t.1 t.2),
      Ndarray.ofFn (d.rows t.2) (d.cols t.2) (fisher t.1 t.2)))

/-- The checkpoint's own matrix of positions, as the converter stores it. -/
def storedOrigin (d : LlamaDims) (l : Nat) (k : Kind) : Option (List Char × Ndarray (Nat × Nat)) :=
  (modifyTensors d (Ndarray.ofFn (d.rows k) (d.cols k) Prod.mk) (hfName l k)).bind List.head?

/-- The importance that the quantiser, run with the saved file, applies to a stored weight. -/
def quantiserImportance (d : LlamaDims) (fisher : Nat → Kind → Nat → Nat → ℚ) (nthread : Nat)
    (l : Nat) (k : Kind) (row col : Nat) : Option ℚ :=
  (storedOrigin d l k).bind fun stored =>
    (loadImatrix (fisherFile d fisher)).bind fun imatrixData =>
      match stored.2.shape with
      | [ne1, ne0] =>
        match findImportance imatrixData "token_embd.weight".toList stored.1 ne0 ne1 1 with
        | .ok (some imp) => appliedImportance (matrixChunks imp ne0 ne1 nthread 0) row col
        | _ => none
      | _ => none

/-- Every stored weight is quantised with the entry computed for the weight it came from. -/
def EntryKept (d : LlamaDims) (l : Nat) (k : Kind) : Prop :=
  ∀ fisher : Nat → Kind → Nat → Nat → ℚ, (∀ l k i j, 0 ≤ fisher l k i j) →
    ∀ nthread row col, row < d.rows k → col < d.cols k →
      ∃ stored i j, storedOrigin d l k = some stored ∧ stored.2.at? [row, col] = some (i, j) ∧
        quantiserImportance d fisher nthread l k row col = some (fisher l k i j)

section Names

theorem hfName_split (l : Nat) (k : Kind) :
    hfName l k = "model.".toList ++
      ("layers.".toList ++ numbered "" l (k.hfModule.toList ++ ".weight".toList)) := by
  have hsplit : "model.layers.".toList = "model.".toList ++ "layers.".toList := by decide
  have hempty : "".toList = [] := by decide
  rw [hfName, numbered, numbered, hsplit, hempty, List.append_assoc, List.nil_append]

/-- The saved name of a matrix is the name the converter gives it. -/
theorem hfNameToGgufName_hfName (l : Nat) (k : Kind) :
    hfNameToGgufName (hfName l k) = blockName l k := by
  have hmodel : "model.".toList.isPrefixOf (hfName l k) = true := by
    rw [hfName_split]
    exact List.isPrefixOf_iff_prefix.2 (List.prefix_append _ _)
  have hdrop : (hfName l k).drop "model.".toList.length =
      "layers.".toList ++ numbered "" l (k.hfModule.toList ++ ".weight".toList) := by
    rw [hfName_split, List.drop_left]
  have hblk (rest : List Char) : "blk.".toList ++ numbered "" l rest = numbered "blk." l rest := by
    have hempty : "".toList = [] := by decide
    rw [numbered, numbered, hempty, List.nil_append]
  simp only [hfNameToGgufName, hmodel, if_true, hdrop]
  rw [replace_prepended (by decide), replace_numbered (by decide), hblk,
    replace_numbered (by decide), replace_numbered (by decide),
    replace_numbered (by decide), replace_numbered (by decide),
    replace_numbered (by decide), replace_numbered (by decide),
    replace_numbered (by decide), replace_numbered (by decide), blockName]
  apply congrArg (numbered "blk." l)
  cases k <;> decide

end Names

section File
variable {ts : List τ} {key : τ → List Char} {val : τ → Ndarray ℚ} {t : τ}

theorem counts_ne_sums (xs ys : List Char) : xs ++ ".counts".toList ≠ ys ++ ".in_sum2".toList := by
  intro h
  have hlast := congrArg List.getLast? h
  rw [List.getLast?_append_of_ne_nil _ (by decide),
    List.getLast?_append_of_ne_nil _ (by decide)] at hlast
  exact absurd hlast (by decide)

theorem lookup_sums (hinj : ∀ x y, key x = key y → x = y) (ht : t ∈ ts) :
    (saveFisherGguf (ts.map fun t => (key t, val t))).lookup (key t ++ ".in_sum2".toList) =
      some ((val t).map (max · 0)) := by
  induction ts with
  | nil => cases ht
  | cons u ts ih =>
    rw [List.map_cons, saveFisherGguf, List.flatMap_cons, List.cons_append, List.cons_append,
      List.nil_append]
    by_cases he : t = u
    · rw [he, List.lookup_cons_self]
    · have hne : key t ++ ".in_sum2".toList ≠ key u ++ ".in_sum2".toList := fun h =>
        he (hinj t u (List.append_cancel_right h))
      rw [lookup_cons_of_ne hne, lookup_cons_of_ne (counts_ne_sums _ _).symm]
      exact ih ((List.mem_cons.1 ht).resolve_left he)

theorem lookup_counts (hinj : ∀ x y, key x = key y → x = y) (ht : t ∈ ts) :
    (saveFisherGguf (ts.map fun t => (key t, val t))).lookup (key t ++ ".counts".toList) =
      some ⟨[1, 1], [1], rfl⟩ := by
  induction ts with
  | nil => cases ht
  | cons u ts ih =>
    rw [List.map_cons, saveFisherGguf, List.flatMap_cons, List.cons_append, List.cons_append,
      List.nil_append, lookup_cons_of_ne (counts_ne_sums _ _)]
    by_cases he : t = u
    · rw [he, List.lookup_cons_self]
    · have hne : key t ++ ".counts".toList ≠ key u ++ ".counts".toList := fun h =>
        he (hinj t u (List.append_cancel_right h))
      rw [lookup_cons_of_ne hne]
      exact ih ((List.mem_cons.1 ht).resolve_left he)

theorem averages_one (sums : Ndarray ℚ) (hshape : sums.shape = [rows, cols]) :
    averages sums ⟨[1, 1], [1], rfl⟩ = sums.data := by
  have hlen : sums.data.length = rows * cols := by
    rw [sums.length_data, hshape]
    simp only [List.prod_cons, List.prod_nil, Nat.mul_one]
  refine List.ext_getElem (by rw [averages, List.length_mapIdx]) fun p _ hp => ?_
  have hrow : p / cols < rows := Nat.div_lt_of_lt_mul (by rw [Nat.mul_comm, ← hlen]; exact hp)
  simp [averages, rowCount, hshape, hrow]

theorem entryName_sums (xs : List Char) : entryName (xs ++ ".in_sum2".toList) = some xs := by
  rw [entryName, stripSuffix_append]
  rfl

theorem entryName_counts (xs : List Char) : entryName (xs ++ ".counts".toList) = some xs := by
  have hno : stripSuffix ".in_sum2" (xs ++ ".counts".toList) = none := by
    apply if_neg
    intro h
    obtain ⟨ys, hys⟩ := List.isSuffixOf_iff_suffix.1 h
    exact counts_ne_sums xs ys hys.symm
  rw [entryName, hno, stripSuffix_append]
  rfl

theorem loadImatrix_saveFisherGguf (ts : List τ) (val : τ → Ndarray ℚ)
    (hinj : ∀ x y, key x = key y → x = y)
    (hshape : ∀ t, ∃ rows cols, (val t).shape = [rows, cols]) :
    ∃ imatrixData, loadImatrix (saveFisherGguf (ts.map fun t => (key t, val t))) =
        some imatrixData ∧
      ∀ t ∈ ts, imatrixData.lookup (key t) = some ((val t).map (max · 0)).data := by
  have hentry (t : τ) (ht : t ∈ ts) :
      loadEntry (saveFisherGguf (ts.map fun t => (key t, val t))) (key t) =
        some ((val t).map (max · 0)).data := by
    obtain ⟨rows, cols, hshape⟩ := hshape t
    rw [loadEntry, lookup_sums hinj ht, Option.bind_some, lookup_counts hinj ht, Option.map_some,
      averages_one ((val t).map _) hshape]
  have hmem (n : List Char) : n ∈ ((saveFisherGguf (ts.map fun t => (key t, val t))).filterMap
      fun t => entryName t.1).dedup ↔ ∃ t ∈ ts, key t = n := by
    rw [List.mem_dedup]
    simp only [List.mem_filterMap, saveFisherGguf, List.mem_flatMap, List.mem_map]
    constructor
    · rintro ⟨e, ⟨_, ⟨t, ht, rfl⟩, he⟩, hn⟩
      rcases List.mem_pair.1 he with rfl | rfl
      · rw [entryName_sums, Option.some.injEq] at hn
        exact ⟨t, ht, hn⟩
      · rw [entryName_counts, Option.some.injEq] at hn
        exact ⟨t, ht, hn⟩
    · rintro ⟨t, ht, rfl⟩
      exact ⟨_, ⟨_, ⟨t, ht, rfl⟩, .head _⟩, entryName_sums _⟩
  obtain ⟨imatrixData, hload⟩ := exists_mapM
    (l := ((saveFisherGguf (ts.map fun t => (key t, val t))).filterMap
      fun t => entryName t.1).dedup)
    (f := fun name => (loadEntry (saveFisherGguf (ts.map fun t => (key t, val t))) name).map
      fun e => (name, e)) (by
      intro n hn
      obtain ⟨t, ht, rfl⟩ := (hmem n).1 hn
      exact ⟨_, by rw [hentry t ht, Option.map_some]⟩)
  refine ⟨imatrixData, hload, ?_⟩
  intro t ht
  rw [lookup_of_mapM hload ((hmem _).2 ⟨t, ht, rfl⟩), hentry t ht]

end File
section Pipeline
variable {d : LlamaDims} {fisher : Nat → Kind → Nat → Nat → ℚ}

theorem storedOrigin_eq (hl : l < d.nBlocks) (k : Kind) :
    ∃ stored, storedOrigin d l k = some (blockName l k, stored) ∧
      stored.shape = [d.rows k, d.cols k] ∧
      ∀ r c, r < d.rows k → c < d.cols k → stored.at? [r, c] = some (d.sourceRow k r, c) := by
  obtain ⟨stored, hmod, hshape, hvals⟩ := modifyTensors_hfName d hl k Prod.mk
  exact ⟨stored, by rw [storedOrigin, hmod]; rfl, hshape, hvals⟩

theorem fisherData_getElem? (hpos : ∀ i j, 0 ≤ f i j) (hr : row < rows) (hc : col < cols) :
    ((Ndarray.ofFn rows cols f).map (max · (0 : ℚ))).data[row * cols + col]? =
      some (f row col) := by
  have hval := Ndarray.at?_ofFn f hr hc
  rw [Ndarray.at?_of_inShape (.cons hr (.cons hc .nil))] at hval
  have hpos' : ravel [rows, cols] [row, col] = row * cols + col := by
    simp only [ravel, List.prod_cons, List.prod_nil, Nat.mul_one, Nat.add_zero]
  rw [← hpos', Ndarray.map, List.getElem?_map]
  exact (congrArg (Option.map (max · 0)) hval).trans
    (congrArg some (max_eq_left (hpos row col)))

/-- The quantiser weighs the stored entry at a position with the saved entry at that position. -/
theorem quantiserImportance_eq (hl : l < d.nBlocks) (hpos : ∀ l k i j, 0 ≤ fisher l k i j)
    (hr : row < d.rows k) (hc : col < d.cols k) (nthread : Nat) :
    quantiserImportance d fisher nthread l k row col = some (fisher l k row col) := by
  obtain ⟨stored, horigin, hshape, _⟩ := storedOrigin_eq hl k
  have hinj (x y : Nat × Kind)
      (h : hfNameToGgufName (hfName x.1 x.2) = hfNameToGgufName (hfName y.1 y.2)) : x = y := by
    rw [hfNameToGgufName_hfName, hfNameToGgufName_hfName] at h
    exact Prod.ext_iff.2 (blockName_injective h)
  obtain ⟨imatrixData, hload, hlookup⟩ := loadImatrix_saveFisherGguf
    (blockTensors d.nBlocks)
    (fun t => Ndarray.ofFn (d.rows t.2) (d.cols t.2) (fisher t.1 t.2)) hinj
    (fun t => ⟨d.rows t.2, d.cols t.2, rfl⟩)
  have hentry := hlookup (l, k) (mem_blockTensors hl k)
  rw [hfNameToGgufName_hfName] at hentry
  simp only at hentry
  have hdata := fisherData_getElem? (hpos l k) hr hc
  have hlen : ((Ndarray.ofFn (d.rows k) (d.cols k) (fisher l k)).map (max · 0)).data.length =
      d.rows k * d.cols k := by
    simp only [Ndarray.map, Ndarray.ofFn, List.length_map, List.length_range]
  generalize ((Ndarray.ofFn (d.rows k) (d.cols k) (fisher l k)).map (max · 0)).data = e
    at hentry hdata hlen
  rw [quantiserImportance, horigin, Option.bind_some, fisherFile, hload, Option.bind_some, hshape]
  simp only [findImportance, hentry, hlen, Nat.mul_one]
  by_cases hcol : d.rows k * d.cols k = d.cols k
  · -- a single row: its values are taken for column weights
    have hrows : d.rows k = 1 :=
      Nat.eq_of_mul_eq_mul_right (by omega) (hcol.trans (Nat.one_mul _).symm)
    have hrow : row = 0 := by omega
    subst hrow
    rw [Nat.zero_mul, Nat.zero_add] at hdata
    rw [if_pos hcol]
    simp only [appliedImportance_matrixChunks _ hc hr, Importance.value, Bool.false_eq_true,
      if_false, hdata]
  · rw [if_neg hcol, if_pos (Nat.mul_comm _ _)]
    simp only [appliedImportance_matrixChunks _ hc hr, Importance.value, if_true, hdata]

theorem permuteRow_fixed_iff (hn : 0 < n) (hhalf : 0 < half) :
    (∀ r, r < n * (2 * half) → permuteRow half r = r) ↔ half = 1 := by
  constructor
  · intro h
    have hbound : 1 * (2 * 1) ≤ n * (2 * half) :=
      Nat.mul_le_mul hn (Nat.mul_le_mul_left 2 hhalf)
    have hone := h 1 (by omega)
    simp only [permuteRow, Nat.reduceDiv, Nat.zero_div, Nat.zero_mul, Nat.reduceMod, Nat.zero_add,
      Nat.one_mul, Nat.zero_mod, Nat.add_zero] at hone
    exact hone
  · rintro rfl
    intro r _
    simp only [permuteRow, Nat.div_one, Nat.mod_one, Nat.mul_one, Nat.add_zero]
    omega

theorem sourceRow_fixed_iff (d : LlamaDims) (k : Kind) :
    (∀ r, r < d.rows k → d.sourceRow k r = r) ↔ (k = .attnQ ∨ k = .attnK → d.headDim = 2) := by
  have hhalf : 0 < d.headDim / 2 := by
    have hpos := d.headDim_pos
    have heven := d.headDim_even
    omega
  have hdim : 2 * (d.headDim / 2) = d.headDim := Nat.mul_div_cancel' d.headDim_even
  have htwo : d.headDim / 2 = 1 ↔ d.headDim = 2 := by omega
  have hq := permuteRow_fixed_iff d.nHead_pos hhalf
  have hk := permuteRow_fixed_iff d.nKvHead_pos hhalf
  rw [hdim, htwo] at hq hk
  cases k
  case attnQ => simpa only [LlamaDims.rows, LlamaDims.sourceRow, true_or, true_imp_iff] using hq
  case attnK => simpa only [LlamaDims.rows, LlamaDims.sourceRow, or_true, true_imp_iff] using hk
  all_goals
    simp only [LlamaDims.sourceRow, implies_true, reduceCtorEq, or_self, false_imp_iff]

theorem entryKept_iff_fixed (hl : l < d.nBlocks) (k : Kind) :
    EntryKept d l k ↔ ∀ r, r < d.rows k → 0 < d.cols k → d.sourceRow k r = r := by
  obtain ⟨stored, horigin, _, hvals⟩ := storedOrigin_eq hl k
  constructor
  · intro h r hr hcols
    obtain ⟨stored', i, j, horigin', hat, himp⟩ := h (fun _ _ i _ => (i : ℚ))
      (fun _ _ i _ => Nat.cast_nonneg i) 1 r 0 hr hcols
    rw [quantiserImportance_eq hl (fun _ _ i _ => Nat.cast_nonneg i) hr hcols] at himp
    rw [horigin, Option.some.injEq] at horigin'
    subst horigin'
    rw [hvals r 0 hr hcols, Option.some.injEq, Prod.mk.injEq] at hat
    rw [hat.1]
    exact (Nat.cast_injective (Option.some.inj himp)).symm
  · intro h fisher hpos nthread row col hr hc
    refine ⟨_, d.sourceRow k row, col, horigin, hvals row col hr hc, ?_⟩
    rw [quantiserImportance_eq hl hpos hr hc, h row hr (by omega)]

/-- The entry computed for a weight is applied to it, except in the query and the key of heads
of more than two dimensions. -/
theorem entryKept_iff (hl : l < d.nBlocks) (k : Kind) :
    EntryKept d l k ↔ (k = .attnQ ∨ k = .attnK → d.headDim = 2) := by
  rw [entryKept_iff_fixed hl k, ← sourceRow_fixed_iff d k]
  constructor
  · intro h r hr
    cases k
    case attnQ | attnK => exact h r hr d.hidden_pos
    all_goals rfl
  · intro h r hr _
    exact h r hr

def oneHead : LlamaDims where
  nBlocks := 1
  nHead := 1
  nKvHead := 1
  headDim := 4
  hidden := 1
  ffn := 1
  nHead_pos := by decide
  nKvHead_pos := by decide
  headDim_pos := by decide
  headDim_even := by decide
  hidden_pos := by decide

theorem entryKept_oneHead : EntryKept oneHead 0 .attnV :=
  (entryKept_iff (by decide) .attnV).2 (by decide)

theorem attnQ_not_entryKept : ¬ EntryKept oneHead 0 .attnQ := by
  intro h
  have hfixed := (entryKept_iff_fixed (by decide) .attnQ).1 h 1 (by decide) (by decide)
  exact absurd hfixed (by decide)

end Pipeline
end ActQuant.Fisher
