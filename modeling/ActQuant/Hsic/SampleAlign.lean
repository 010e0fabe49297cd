import ActQuant.Hsic.Samples

namespace ActQuant.Hsic
open ActQuant.Lib ActQuant.Gguf

variable {ι K : Type}

section Prefixes

/-- The leading frames whose row stands at the same place among the rows. -/
def sharedPrefix : List Nat → List Nat → Nat
  | m :: ms, n :: ns => if m = n then m + sharedPrefix ms ns else min m n
  | _, _ => 0

theorem framesFrom_length (ns : List Nat) : (framesFrom i ns).length = ns.sum := by
  induction ns generalizing i with
  | nil => rfl
  | cons n ns ih =>
    simp only [framesFrom, List.length_append, List.length_map, List.length_range, ih,
      List.sum_cons]

theorem le_of_mem_framesFrom (h : f ∈ framesFrom i ns) : i ≤ f.1 := by
  induction ns generalizing i with
  | nil => cases h
  | cons n ns ih =>
    rcases List.mem_append.1 h with h | h
    · obtain ⟨j, _, rfl⟩ := List.mem_map.1 h
      exact le_rfl
    · exact Nat.le_of_succ_le (ih h)

/-- Past the end of its file the shorter of two takes goes on with another file. -/
theorem take_framesFrom_ne (hmn : m < n) (hmk : m < k) :
    (framesFrom i (m :: ms)).take k ≠ (framesFrom i (n :: ns)).take k := by
  intro h
  have hright : ((framesFrom i (n :: ns)).take k)[m]? = some (i, m) := by
    rw [List.getElem?_take_of_lt hmk, framesFrom, List.getElem?_append_left (by simpa using hmn)]
    simp [hmn]
  rw [← h, List.getElem?_take_of_lt hmk, framesFrom, List.getElem?_append_right (by simp)] at hright
  have hle := le_of_mem_framesFrom (List.mem_of_getElem? hright)
  exact absurd hle (Nat.not_succ_le_self i)

theorem take_framesFrom_of_le (h : k ≤ n) :
    (framesFrom i (n :: ns)).take k = (List.range k).map fun j => (i, j) := by
  rw [framesFrom, List.take_append_of_le_length (by simpa using h), ← List.map_take,
    List.take_range, Nat.min_eq_left h]

theorem take_framesFrom_add (k : Nat) :
    (framesFrom i (n :: ns)).take (n + k) =
      (List.range n).map (fun j => (i, j)) ++ (framesFrom (i + 1) ns).take k := by
  have hblock : ((List.range n).map fun j => (i, j)).length = n := by simp
  rw [framesFrom, List.take_append, hblock, Nat.add_sub_cancel_left,
    List.take_of_length_le (by rw [hblock]; exact Nat.le_add_right n k)]

theorem take_framesFrom_iff (hm : k ≤ ms.sum) (hn : k ≤ ns.sum) :
    (framesFrom i ms).take k = (framesFrom i ns).take k ↔ k ≤ sharedPrefix ms ns := by
  induction ms generalizing ns k i with
  | nil =>
    rw [List.sum_nil, Nat.le_zero] at hm
    simp [hm]
  | cons m ms ih =>
    cases ns with
    | nil =>
      rw [List.sum_nil, Nat.le_zero] at hn
      simp [hn]
    | cons n ns =>
      rw [List.sum_cons] at hm hn
      by_cases hshort : k ≤ min m n
      · rw [take_framesFrom_of_le (by omega), take_framesFrom_of_le (by omega), sharedPrefix]
        refine iff_of_true rfl ?_
        split_ifs <;> omega
      · rcases lt_trichotomy m n with hlt | rfl | hlt
        · rw [sharedPrefix, if_neg hlt.ne]
          exact iff_of_false (take_framesFrom_ne hlt (by omega)) (by omega)
        · obtain ⟨k, rfl⟩ := Nat.exists_eq_add_of_le (show m ≤ k by omega)
          rw [sharedPrefix, if_pos rfl, take_framesFrom_add, take_framesFrom_add,
            List.append_cancel_left_eq, ih (by omega) (by omega), Nat.add_le_add_iff_left]
        · rw [sharedPrefix, if_neg hlt.ne']
          exact iff_of_false (Ne.symm (take_framesFrom_ne hlt (by omega))) (by omega)

end Prefixes

section Aligned
variable {calib : Calib} {yMode : YMode} {args : LegacyArgs}

/-- The files Y is read from, where it is not the hidden state. -/
def LegacyArgs.targetCounts (args : LegacyArgs) (yMode : YMode) : Option (List Nat) :=
  match args.calibGt, yMode with
  | some calibGt, _ => some calibGt
  | none, .actions => args.calibTargets
  | none, _ => none

/-- The rows of the targets stand where their frames do, as far as the frames are used. -/
def Calib.RowsMatch (yMode : YMode) : Calib → Prop
  | .calibDir _ => True
  | .legacy args => ∀ counts, args.targetCounts yMode = some counts →
      args.useFrames ≤ sharedPrefix args.calibData counts

instance : Decidable (Calib.RowsMatch yMode calib) :=
  match calib with
  | .calibDir _ => .isTrue trivial
  | .legacy args =>
    match h : args.targetCounts yMode with
    | none => .isTrue fun _ hc => by rw [h] at hc; cases hc
    | some counts => decidable_of_iff (args.useFrames ≤ sharedPrefix args.calibData counts)
        ⟨fun hle _ hc => by rw [h] at hc; cases hc; exact hle, fun hall => hall counts h⟩

theorem actionCounts_of_targetCounts (h : args.targetCounts yMode = some counts) :
    args.actionCounts = some counts := by
  obtain ⟨calibData, calibGt, calibTargets, nFrames⟩ := args
  cases calibGt with
  | some calibGt => exact h
  | none =>
    cases yMode with
    | actions => exact h
    | targets | lastHidden => cases h

theorem useFrames_le (h : args.actionCounts = some counts) :
    args.useFrames ≤ args.calibData.sum ∧ args.useFrames ≤ counts.sum := by
  rw [LegacyArgs.useFrames, h, Option.getD_some]
  omega

theorem legacy_frames_eq_some_iff :
    (Calib.legacy args).frames = some frames ↔
      (framesFrom 0 args.calibData).take args.useFrames = frames ∧ frames ≠ [] := by
  rw [Calib.frames, stack]
  split_ifs with h
  · rw [h]
    exact iff_of_false (by simp) fun hf => hf.2 hf.1.symm
  · rw [Option.some.injEq]
    exact ⟨fun hf => ⟨hf, hf ▸ h⟩, And.left⟩

theorem legacy_length_frames (hc : args.targetCounts yMode = some counts)
    (h : (Calib.legacy args).frames = some frames) : frames.length = args.useFrames := by
  obtain ⟨rfl, _⟩ := legacy_frames_eq_some_iff.1 h
  have hle := (useFrames_le (actionCounts_of_targetCounts hc)).1
  rw [List.length_take, framesFrom_length, Nat.min_eq_left hle]

theorem legacy_targetFrames (hc : args.targetCounts yMode = some counts) (hne : counts ≠ []) :
    (Calib.legacy args).targetFrames yMode frames =
      some ((framesFrom 0 counts).take frames.length) := by
  obtain ⟨calibData, calibGt, calibTargets, nFrames⟩ := args
  cases calibGt with
  | some calibGt =>
    cases hc
    simp only [Calib.targetFrames, if_neg hne]
  | none =>
    cases yMode with
    | actions =>
      have htargets : calibTargets = some counts := hc
      subst htargets
      simp only [Calib.targetFrames, Option.bind_eq_bind, Option.bind_some, if_neg hne]
    | targets | lastHidden => cases hc

theorem legacy_targetFrames_hidden (hc : args.targetCounts yMode = none)
    (h : (Calib.legacy args).targetFrames yMode frames = some yFrames) : yFrames = frames := by
  obtain ⟨calibData, calibGt, calibTargets, nFrames⟩ := args
  cases calibGt with
  | some calibGt => cases hc
  | none =>
    obtain ⟨_, hsome, h⟩ := Option.bind_eq_some_iff.1 h
    obtain ⟨_, _, h⟩ := Option.bind_eq_some_iff.1 h
    cases yMode with
    | actions =>
      have hnone : calibTargets = none := hc
      rw [hnone] at hsome
      cases hsome
    | targets | lastHidden => exact (Option.some.inj h).symm

theorem mapM_framesFrom_single {vlaIndices : List Nat}
    (h : vlaIndices.mapM ((framesFrom 0 [n])[·]?) = some frames) :
    frames = vlaIndices.map fun i => (0, i) := by
  have hread : vlaIndices.mapM ((framesFrom 0 [n])[·]?) =
      some (vlaIndices.map fun i => (0, i)) := by
    apply mapM_eq_some_map
    intro i hi
    have hlt := lt_length_of_mapM h hi
    rw [framesFrom_length, List.sum_singleton] at hlt
    rw [framesFrom, framesFrom, List.append_nil]
    simp [hlt]
  exact Option.some.inj (h.symm.trans hread)

theorem targetFrames_of_rowsMatch (hm : calib.RowsMatch yMode)
    (hframes : calib.frames = some frames) (hy : calib.targetFrames yMode frames = some yFrames) :
    yFrames = frames := by
  cases calib with
  | calibDir args =>
    simp only [Calib.frames, Calib.targetFrames] at hframes hy
    obtain ⟨vlaIndices, hidx, hframes⟩ := Option.bind_eq_some_iff.1 hframes
    obtain ⟨read, hread, hframes⟩ := Option.bind_eq_some_iff.1 hframes
    rw [stack] at hframes
    split_ifs at hframes
    cases hframes
    rw [hidx] at hy
    cases yMode with
    | targets => exact (Option.some.inj (hread.symm.trans hy)).symm
    | lastHidden => exact (Option.some.inj hy).symm
    | actions => rw [mapM_framesFrom_single hread, mapM_framesFrom_single hy]
  | legacy args =>
    cases hc : args.targetCounts yMode with
    | none => exact legacy_targetFrames_hidden hc hy
    | some counts =>
      have hle := hm counts hc
      obtain ⟨hdata, hcounts⟩ := useFrames_le (actionCounts_of_targetCounts hc)
      have hlen := legacy_length_frames hc hframes
      obtain ⟨htake, hne⟩ := legacy_frames_eq_some_iff.1 hframes
      have hnil : counts ≠ [] := by
        rintro rfl
        rw [List.sum_nil, Nat.le_zero, ← hlen] at hcounts
        exact hne (List.length_eq_zero_iff.1 hcounts)
      rw [legacy_targetFrames hc hnil, hlen] at hy
      rw [← htake, ← Option.some.inj hy]
      exact ((take_framesFrom_iff hdata hcounts).2 hle).symm

theorem exists_targetFrames_ne (hm : ¬ calib.RowsMatch yMode) :
    ∃ frames yFrames, calib.frames = some frames ∧
      calib.targetFrames yMode frames = some yFrames ∧ yFrames ≠ frames := by
  cases calib with
  | calibDir args => exact absurd trivial hm
  | legacy args =>
    simp only [Calib.RowsMatch, not_forall] at hm
    obtain ⟨counts, hc, hlt⟩ := hm
    obtain ⟨hdata, hcounts⟩ := useFrames_le (actionCounts_of_targetCounts hc)
    have hframes : (Calib.legacy args).frames =
        some ((framesFrom 0 args.calibData).take args.useFrames) := by
      refine legacy_frames_eq_some_iff.2 ⟨rfl, ?_⟩
      apply List.ne_nil_of_length_pos
      rw [List.length_take, framesFrom_length]
      omega
    have hnil : counts ≠ [] := by
      rintro rfl
      rw [List.sum_nil] at hcounts
      omega
    refine ⟨_, _, hframes, legacy_targetFrames hc hnil, fun heq => hlt ?_⟩
    rw [legacy_length_frames hc hframes] at heq
    exact (take_framesFrom_iff hdata hcounts).1 heq.symm

variable [Field K] [LinearOrder K]

/-- Every run, on a fresh collection or a cache, samples all its matrices from the same frames. -/
def SampleAligned (ι : Type) (r : SquareRoot K) (calib : Calib) (yMode : YMode) : Prop :=
  ∃ frames : Option (List Frame), ∀ (C : Content ι K) (nLayers : Nat) (b : Batching)
    (earlier : List (YMode × Batching)),
      samples r C calib nLayers yMode b earlier = if nLayers = 0 then none
        else frames.map fun fs => Samples.ofFrames r C calib yMode nLayers fs fs

/-- One content that every matrix is read from. -/
def Content.const (f : Frame → ι → K) : Content ι K := ⟨⟨f, f, fun _ => f, fun _ => f⟩, f, f⟩

omit [Field K] [LinearOrder K] in
theorem target_const (f : Frame → ι → K) : calib.target (.const f) yMode = f := by
  cases calib with
  | calibDir args => cases yMode <;> rfl
  | legacy args =>
    obtain ⟨_, calibGt, _, _⟩ := args
    cases calibGt with
    | some _ => rfl
    | none => cases yMode <;> rfl

theorem rowsMatch_of_sampleAligned [Nonempty ι] {r : SquareRoot K}
    (h : SampleAligned ι r calib yMode) : calib.RowsMatch yMode := by
  by_contra hm
  obtain ⟨frames, yFrames, hframes, hy, hne⟩ := exists_targetFrames_ne hm
  obtain ⟨aligned, h⟩ := h
  have hrun (f : Frame → ι → K) :
      some (Samples.ofFrames r (.const f) calib yMode 1 frames yFrames) =
        aligned.map fun fs => Samples.ofFrames r (.const f) calib yMode 1 fs fs := by
    have hsamples := h (.const f) 1 ⟨1, 1, 1, Nat.one_pos, Nat.one_pos⟩ []
    rwa [samples_eq, if_neg Nat.one_ne_zero, if_neg Nat.one_ne_zero, hframes, Option.bind_some, hy,
      Option.map_some] at hsamples
  cases aligned with
  | none => cases hrun fun _ _ => 0
  | some fs =>
    have hx : frames = fs :=
      eq_of_map_eq fun f => congrArg Samples.xActs (Option.some.inj (hrun f))
    have hyraw : yFrames = fs := by
      apply eq_of_map_eq (β := ι → K)
      intro f
      have hraw := congrArg Samples.yRaw (Option.some.inj (hrun f))
      simpa only [Samples.ofFrames, target_const] using hraw
    exact hne (hyraw.trans hx.symm)

theorem sampleAligned_of_rowsMatch (r : SquareRoot K) (hm : calib.RowsMatch yMode) :
    SampleAligned ι r calib yMode := by
  refine ⟨calib.frames.bind fun fs => (calib.targetFrames yMode fs).map fun _ => fs, ?_⟩
  intro C nLayers b earlier
  rw [samples_eq]
  congr 1
  cases hframes : calib.frames with
  | none => rfl
  | some frames =>
    rw [Option.bind_some, Option.bind_some]
    cases hy : calib.targetFrames yMode frames with
    | none => rfl
    | some yFrames =>
      rw [targetFrames_of_rowsMatch hm hframes hy]
      rfl

end Aligned

end ActQuant.Hsic
