import ActQuant.Fisher.CalibCollect
import ActQuant.Fisher.TfInverse
import ActQuant.Lib.Layout

namespace ActQuant.Fisher
open ActQuant.Lib ActQuant.Hsic

/-- The metadata of a suite as the collection writes it. -/
def OfEpisodes (suite : Suite) (episodes : List Episode) : Prop :=
  suite.episodes = some episodes ∧ suite.numFrames = (episodes.map (·.numFrames)).sum

def numTasks (episodes : List Episode) : Nat := (episodes.map (·.task)).dedup.length

/-- The frames of an episode are kept: all are wanted, or it is among the first of its task. -/
def Keeps (want : Int) (episodes : List Episode) (e : Nat) (ep : Episode) : Prop :=
  want ≤ 0 ∨ episodes.length ≤ want ∨
    ((episodes.take e).countP (·.task = ep.task) : Int) < want / numTasks episodes

/-- What is asked for of a suite. -/
def wantOf (requested : SuiteKey → Option Int) (suite : Suite) : Int :=
  ((suiteNameMap.find? (·.2 = suite.dataset)).bind fun k => requested k.1).getD (-1)

/-- The frames of a suite that are kept, from its offset on. -/
def KeptFrame (want : Int) (episodes : List Episode) (offset i : Nat) : Prop :=
  ∃ e ep j, episodes[e]? = some ep ∧ Keeps want episodes e ep ∧ j < ep.numFrames ∧
    i = offset + ((episodes.take e).map (·.numFrames)).sum + j

section Suites
variable {episodes : List Episode}

theorem groupBy_task_length :
    (Dict.groupBy (fun ep : Episode × Nat => ep.1.task) (·.2) episodes.zipIdx).length =
      numTasks episodes := by
  obtain ⟨hnd, hkeys, -⟩ :=
    Dict.groupBy_spec (fun ep : Episode × Nat => ep.1.task) (·.2) episodes.zipIdx
  have htasks : episodes.zipIdx.map (fun ep => ep.1.task) = episodes.map (·.task) := by
    conv_rhs => rw [← List.zipIdx_map_fst 0 episodes, List.map_map]
    rfl
  have hperm := (List.perm_ext_iff_of_nodup hnd (List.nodup_dedup (episodes.map (·.task)))).2
    fun k => by rw [hkeys, htasks, List.mem_dedup]
  rw [numTasks, ← hperm.length_eq, List.length_map]

/-- The places of the first episodes of each task, whatever the order of the tasks. -/
theorem kept_places {tasks : Dict String (List Nat)} (perTask : Nat) (hperm : tasks.Perm
      (Dict.groupBy (fun ep : Episode × Nat => ep.1.task) (·.2) episodes.zipIdx)) :
    (tasks.map (·.2.take perTask)).flatten.Nodup ∧
      ∀ e, e ∈ (tasks.map (·.2.take perTask)).flatten ↔ ∃ ep, episodes[e]? = some ep ∧
        (episodes.take e).countP (·.task = ep.task) < perTask := by
  obtain ⟨hnd, hkeys, hvals⟩ :=
    Dict.groupBy_spec (fun ep : Episode × Nat => ep.1.task) (·.2) episodes.zipIdx
  have hmem (task : String × List Nat) (htask : task ∈ tasks) (e : Nat) :
      e ∈ task.2.take perTask ↔ ∃ ep, episodes[e]? = some ep ∧ ep.task = task.1 ∧
        (episodes.take e).countP (·.task = task.1) < perTask := by
    rw [hvals task (hperm.mem_iff.1 htask),
      mem_take_places episodes fun ep => decide (ep.task = task.1)]
    constructor
    · rintro ⟨k, ep, rfl, hep, htask, hlt⟩
      rw [Nat.zero_add]
      exact ⟨ep, hep, of_decide_eq_true htask, hlt⟩
    · rintro ⟨ep, hep, htask, hlt⟩
      exact ⟨e, ep, (Nat.zero_add e).symm, hep, decide_eq_true htask, hlt⟩
  constructor
  · rw [List.nodup_flatten]
    constructor
    · intro places hplaces
      obtain ⟨task, htask, rfl⟩ := List.mem_map.1 hplaces
      rw [hvals task (hperm.mem_iff.1 htask)]
      have hall : (episodes.zipIdx.map (·.2)).Nodup := by
        rw [List.zipIdx_map_snd]
        exact List.nodup_range'
      exact hall.sublist ((List.take_sublist _ _).trans (List.filter_sublist.map _))
    · have htasks : (tasks.map Prod.fst).Nodup := (hperm.map Prod.fst).nodup_iff.2 hnd
      rw [List.pairwise_map]
      refine (List.pairwise_map.1 htasks).imp_of_mem ?_
      intro task task' htask htask' hne
      rw [List.disjoint_left]
      intro e he he'
      obtain ⟨ep, hep, hkey, _⟩ := (hmem task htask e).1 he
      obtain ⟨ep', hep', hkey', _⟩ := (hmem task' htask' e).1 he'
      rw [hep] at hep'
      cases hep'
      exact hne (hkey.symm.trans hkey')
  · intro e
    rw [List.mem_flatten]
    constructor
    · rintro ⟨places, hplaces, he⟩
      obtain ⟨task, htask, rfl⟩ := List.mem_map.1 hplaces
      obtain ⟨ep, hep, hkey, hlt⟩ := (hmem task htask e).1 he
      exact ⟨ep, hep, by rwa [hkey]⟩
    · rintro ⟨ep, hep, hlt⟩
      have hfound : ep.task ∈ episodes.zipIdx.map fun ep => ep.1.task := by
        rw [List.mem_map]
        exact ⟨(ep, e), List.mem_zipIdx_iff_getElem?.2 hep, rfl⟩
      obtain ⟨task, htask, hkey⟩ := List.mem_map.1 ((hkeys _).2 hfound)
      refine ⟨task.2.take perTask, List.mem_map_of_mem (hperm.mem_iff.2 htask), ?_⟩
      exact (hmem task (hperm.mem_iff.2 htask) e).2 ⟨ep, hep, hkey.symm, by rwa [hkey]⟩

/-- The frames of the episodes at some distinct places. -/
theorem frames_of_places {places : List Nat} (offset : Nat) (hnd : places.Nodup)
    (hplaces : ∀ e ∈ places, e < episodes.length) :
    let frames := (places.map fun e =>
      List.range' (offset + ((episodes.map (·.numFrames)).take e).sum)
        ((episodes.map (·.numFrames)).getD e 0)).flatten
    frames.Nodup ∧ ∀ i, i ∈ frames ↔ ∃ e ep j, e ∈ places ∧ episodes[e]? = some ep ∧
      j < ep.numFrames ∧ i = offset + ((episodes.take e).map (·.numFrames)).sum + j := by
  have hcount {e : Nat} (he : e ∈ places) : (episodes.map (·.numFrames))[e]? =
      some ((episodes.map (·.numFrames)).getD e 0) :=
    getElem?_eq_some_getD 0 (by rw [List.length_map]; exact hplaces e he)
  constructor
  · rw [List.nodup_flatten]
    constructor
    · intro frames hframes
      obtain ⟨e, _, rfl⟩ := List.mem_map.1 hframes
      exact List.nodup_range'
    · rw [List.pairwise_map]
      refine hnd.pairwise_of_forall_ne ?_
      intro e he e' he' hne
      rw [List.disjoint_left]
      intro i hi hi'
      rw [List.mem_range'_1] at hi hi'
      rcases Nat.lt_or_gt_of_ne hne with hlt | hlt
      · have hle := sum_take_add_le (hcount he) hlt
        omega
      · have hle := sum_take_add_le (hcount he') hlt
        omega
  · intro i
    rw [List.mem_flatten]
    constructor
    · rintro ⟨frames, hframes, hi⟩
      obtain ⟨e, he, rfl⟩ := List.mem_map.1 hframes
      have hep := List.getElem?_eq_getElem (hplaces e he)
      have hn := hcount he
      rw [List.getElem?_map, hep, Option.map_some] at hn
      rw [← Option.some.inj hn, List.mem_range'_1, ← List.map_take] at hi
      exact ⟨e, _, i - (offset + ((episodes.take e).map (·.numFrames)).sum), he, hep, by omega,
        by omega⟩
    · rintro ⟨e, ep, j, he, hep, hj, rfl⟩
      have hn := hcount he
      rw [List.getElem?_map, hep, Option.map_some] at hn
      refine ⟨_, List.mem_map_of_mem he, ?_⟩
      rw [← Option.some.inj hn, List.mem_range'_1, ← List.map_take]
      omega

theorem toNat_wantOf (requested : SuiteKey → Option Int) (suite : Suite) :
    (((suiteNameMap.find? (·.2 = suite.dataset)).map (·.1)).map
      fun k => ((requested k).getD (-1)).toNat).getD 0 = (wantOf requested suite).toNat := by
  rw [wantOf]
  cases suiteNameMap.find? (·.2 = suite.dataset) with
  | none => rfl
  | some k => rfl

theorem concatenate_eq_some {arrays : List (List α)} (h : concatenate arrays = some all) :
    arrays ≠ [] ∧ all = arrays.flatten := by
  rw [concatenate] at h
  split at h
  case isTrue => cases h
  case isFalse hne => exact ⟨hne, (Option.some.inj h).symm⟩

theorem suiteFrames_spec {suite : Suite} (hform : OfEpisodes suite episodes)
    (requested : SuiteKey → Option Int)
    (h : suiteFrames (fun k => ((requested k).getD (-1)).toNat) offset suite = some frames) :
    frames.Nodup ∧ ∀ i, i ∈ frames ↔ KeptFrame (wantOf requested suite) episodes offset i := by
  obtain ⟨hepisodes, hnum⟩ := hform
  simp only [suiteFrames, hepisodes, toNat_wantOf, Option.bind_eq_bind, Option.bind_some] at h
  generalize wantOf requested suite = want at h ⊢
  split at h
  case isTrue hall =>
    cases h
    refine ⟨List.nodup_range', ?_⟩
    intro i
    have hkeeps (e : Nat) (ep : Episode) : Keeps want episodes e ep := by
      rcases hall with hall | hall
      · exact .inl (by omega)
      · by_cases hpos : want ≤ 0
        · exact .inl hpos
        · exact .inr (.inl (by omega))
    rw [List.mem_range'_1, hnum]
    constructor
    · rintro ⟨hle, hlt⟩
      obtain ⟨e, n, j, hn, hj, heq⟩ := lt_sum_iff.1
        (show i - offset < (episodes.map (·.numFrames)).sum by omega)
      rw [List.getElem?_map] at hn
      obtain ⟨ep, hep, rfl⟩ := Option.map_eq_some_iff.1 hn
      rw [← List.map_take] at heq
      exact ⟨e, ep, j, hep, hkeeps e ep, hj, by omega⟩
    · rintro ⟨e, ep, j, hep, _, hj, rfl⟩
      have hn : (episodes.map (·.numFrames))[e]? = some ep.numFrames := by
        rw [List.getElem?_map, hep, Option.map_some]
      have hlt := lt_sum_iff.2 ⟨e, _, j, hn, hj, rfl⟩
      rw [← List.map_take] at hlt
      omega
  case isFalse hsome =>
    split at h
    case isTrue => cases h
    case isFalse =>
      obtain ⟨kept, hkept, h⟩ := Option.bind_eq_some_iff.1 h
      have hdict : episodes.zipIdx.foldl (fun d ep => Dict.append ep.1.task ep.2 d) [] =
          Dict.groupBy (fun ep : Episode × Nat => ep.1.task) (·.2) episodes.zipIdx := rfl
      rw [hdict, groupBy_task_length] at hkept
      have hcut := eq_map_of_mapM (g := fun task : String × List Nat =>
        task.2.take (want.toNat / numTasks episodes)) (fun task places htask => by
          split at htask
          · cases htask
          · exact (Option.some.inj htask).symm) hkept
      have hperm := List.mergeSort_perm
        (Dict.groupBy (fun ep : Episode × Nat => ep.1.task) (·.2) episodes.zipIdx)
        fun a b => decide (a.1 ≤ b.1)
      obtain ⟨hnd, hplaces⟩ := kept_places (want.toNat / numTasks episodes) hperm
      rw [← hcut] at hnd hplaces
      have hlt : ∀ e ∈ kept.flatten, e < episodes.length := by
        intro e he
        obtain ⟨ep, hep, _⟩ := (hplaces e).1 he
        exact (List.getElem?_eq_some_iff.1 hep).1
      obtain ⟨hframes, hmem⟩ := frames_of_places offset hnd hlt
      obtain ⟨-, rfl⟩ := concatenate_eq_some h
      refine ⟨hframes, ?_⟩
      intro i
      rw [hmem]
      have hkeeps (e : Nat) (ep : Episode) : Keeps want episodes e ep ↔
          (episodes.take e).countP (·.task = ep.task) < want.toNat / numTasks episodes := by
        have hdiv : want / numTasks episodes = (want.toNat / numTasks episodes : Nat) := by
          rw [Int.natCast_ediv, Int.toNat_of_nonneg (by omega)]
        rw [Keeps, hdiv, Int.ofNat_lt]
        omega
      constructor
      · rintro ⟨e, ep, j, he, hep, hj, rfl⟩
        obtain ⟨ep', hep', hrank⟩ := (hplaces e).1 he
        rw [hep] at hep'
        cases hep'
        exact ⟨e, ep, j, hep, (hkeeps e ep).2 hrank, hj, rfl⟩
      · rintro ⟨e, ep, j, hep, hkeep, hj, rfl⟩
        exact ⟨e, ep, j, (hplaces e).2 ⟨ep, hep, (hkeeps e ep).1 hkeep⟩, hep, hj, rfl⟩

theorem KeptFrame.bounds {suite : Suite} (hform : OfEpisodes suite episodes)
    (h : KeptFrame want episodes offset i) : offset ≤ i ∧ i < offset + suite.numFrames := by
  obtain ⟨e, ep, j, hep, _, hj, rfl⟩ := h
  have hn : (episodes.map (·.numFrames))[e]? = some ep.numFrames := by
    rw [List.getElem?_map, hep, Option.map_some]
  have hlt := lt_sum_iff.2 ⟨e, _, j, hn, hj, rfl⟩
  rw [← List.map_take, ← hform.2] at hlt
  omega

theorem OfEpisodes.unique {suite : Suite} (h : OfEpisodes suite episodes)
    (h' : OfEpisodes suite episodes') : episodes' = episodes :=
  Option.some.inj (h'.1.symm.trans h.1)

/-- The loop over the suites, from any offset on. -/
theorem suitesFrames_spec {suites : List Suite} (requested : SuiteKey → Option Int)
    (hform : ∀ suite ∈ suites, ∃ episodes, OfEpisodes suite episodes)
    (h : suitesFrames (fun k => ((requested k).getD (-1)).toNat) offset suites = some parts) :
    (∀ i ∈ parts.flatten, offset ≤ i ∧ i < offset + (suites.map (·.numFrames)).sum) ∧
      parts.flatten.Nodup ∧ parts.length = suites.length ∧
      ∀ k suite episodes frames, suites[k]? = some suite → OfEpisodes suite episodes →
        parts[k]? = some frames → ∀ i, i ∈ frames ↔ KeptFrame (wantOf requested suite) episodes
          (offset + ((suites.take k).map (·.numFrames)).sum) i := by
  induction suites generalizing offset parts with
  | nil =>
    cases h
    exact ⟨fun _ h => (nomatch h), List.nodup_nil, rfl, fun _ _ _ _ h => (nomatch h)⟩
  | cons suite suites ih =>
    obtain ⟨frames, hframes, h⟩ := Option.bind_eq_some_iff.1 h
    obtain ⟨rest, hrest, h⟩ := Option.bind_eq_some_iff.1 h
    cases h
    obtain ⟨episodes, hepisodes⟩ := hform suite (.head _)
    obtain ⟨hnd, hmem⟩ := suiteFrames_spec hepisodes requested hframes
    obtain ⟨hbounds, hndRest, hlen, hmemRest⟩ :=
      ih (fun suite hsuite => hform suite (.tail _ hsuite)) hrest
    have hhere (i : Nat) (hi : i ∈ frames) : offset ≤ i ∧ i < offset + suite.numFrames :=
      ((hmem i).1 hi).bounds hepisodes
    refine ⟨?_, ?_, ?_, ?_⟩
    · intro i hi
      rw [List.map_cons, List.sum_cons]
      rw [List.flatten_cons, List.mem_append] at hi
      rcases hi with hi | hi
      · have hb := hhere i hi
        omega
      · have hb := hbounds i hi
        omega
    · rw [List.flatten_cons]
      refine hnd.append hndRest ?_
      intro i hi hi'
      have hb := hhere i hi
      have hb' := hbounds i hi'
      omega
    · rw [List.length_cons, List.length_cons, hlen]
    · intro k suite' episodes' frames' hsuite' hepisodes' hframes' i
      cases k with
      | zero =>
        cases hsuite'
        cases hframes'
        rw [hepisodes.unique hepisodes']
        exact hmem i
      | succ k =>
        rw [List.take_succ_cons, List.map_cons, List.sum_cons, ← Nat.add_assoc]
        exact hmemRest k suite' episodes' frames' hsuite' hepisodes' hframes' i

end Suites

section Result
variable {Image Rng : Type}

/-- The metadata that `main` writes counts what the arrays hold, suite by suite. -/
theorem collectMain_form {W : World Image Rng} {shards : SuiteKey → List Bytes}
    (h : collectMain W shards args = some files) :
    (∀ suite ∈ files.suites, ∃ episodes, OfEpisodes suite episodes) ∧
      files.totalFrames = (files.suites.map (·.numFrames)).sum ∧
      files.data.pixelValues.length = files.totalFrames ∧
      files.data.state.length = files.totalFrames ∧
      files.data.gtActions.length = files.totalFrames ∧
      files.data.prompts.length = files.totalFrames := by
  obtain ⟨suites, hsuites, h⟩ := Option.bind_eq_some_iff.1 h
  have hsuite : ∀ p ∈ suites, ∃ episodes, OfEpisodes p.2 episodes ∧
      p.1.pixelValues.length = p.2.numFrames ∧ p.1.state.length = p.2.numFrames ∧
      p.1.gtActions.length = p.2.numFrames ∧ p.1.prompts.length = p.2.numFrames := by
    intro p hp
    obtain ⟨key, _, hkey⟩ := exists_of_mem_mapM hsuites hp
    obtain ⟨⟨out, info⟩, hout, hkey⟩ := Option.bind_eq_some_iff.1 hkey
    cases hkey
    obtain ⟨eps, _, hlined⟩ := collectSuite_linedUp hout
    have hpixels := hlined.pixelValues
    exact ⟨info, ⟨rfl, hpixels⟩, rfl, hlined.state.trans hpixels.symm,
      hlined.gtActions.trans hpixels.symm, hlined.prompts.trans hpixels.symm⟩
  have hlen (f : SuiteData Image → Nat) (hf : ∀ p ∈ suites, f p.1 = p.2.numFrames) :
      (suites.map fun p => f p.1).sum = ((suites.map (·.2)).map (·.numFrames)).sum := by
    rw [List.map_map]
    exact congrArg List.sum (List.map_congr_left hf)
  have hpixels := hlen (·.pixelValues.length) fun p hp => (hsuite p hp).choose_spec.2.1
  have hstate := hlen (·.state.length) fun p hp => (hsuite p hp).choose_spec.2.2.1
  have hactions := hlen (·.gtActions.length) fun p hp => (hsuite p hp).choose_spec.2.2.2.1
  have hprompts := hlen (·.prompts.length) fun p hp => (hsuite p hp).choose_spec.2.2.2.2
  dsimp only at h
  split at h
  case isTrue => cases h
  case isFalse =>
    cases h
    refine ⟨?_, ?_, rfl, ?_, ?_, ?_⟩
    · intro suite hmem
      obtain ⟨p, hp, rfl⟩ := List.mem_map.1 hmem
      obtain ⟨episodes, hform, _⟩ := hsuite p hp
      exact ⟨episodes, hform⟩
    · rw [List.length_flatMap, hpixels]
    · rw [List.length_flatMap, List.length_flatMap, hstate, hpixels]
    · rw [List.length_flatMap, List.length_flatMap, hactions, hpixels]
    · rw [List.length_flatMap, List.length_flatMap, hprompts, hpixels]

/-- The data of a suite line up with its metadata, `main` writes metadata of this form, and the
frames selected by such metadata are those of the episodes asked for. -/
theorem calibration_lines_up (W : World Image Rng) :
    (∀ shards nEpisodes actionHorizon seed out info,
      collectSuite W shards nEpisodes actionHorizon seed = some (out, info) →
        ∃ eps, eps.Sublist (readable shards) ∧ LinedUp actionHorizon eps out info) ∧
    (∀ shards args files, collectMain W shards args = some files →
      (∀ suite ∈ files.suites, ∃ episodes, OfEpisodes suite episodes) ∧
        files.totalFrames = (files.suites.map (·.numFrames)).sum ∧
        files.data.pixelValues.length = files.totalFrames ∧
        files.data.state.length = files.totalFrames ∧
        files.data.gtActions.length = files.totalFrames ∧
        files.data.prompts.length = files.totalFrames) ∧
    ∀ suites requested indices, (∀ suite ∈ suites, ∃ episodes, OfEpisodes suite episodes) →
      selectedFrames suites requested = some indices →
        (∀ i ∈ indices, i < (suites.map (·.numFrames)).sum) ∧ indices.Nodup ∧
        ∃ parts : List (List Nat), indices = parts.flatten ∧ parts.length = suites.length ∧
          ∀ k suite episodes frames, suites[k]? = some suite → OfEpisodes suite episodes →
            parts[k]? = some frames → ∀ i, i ∈ frames ↔ KeptFrame (wantOf requested suite)
              episodes ((suites.take k).map (·.numFrames)).sum i := by
  refine ⟨?_, ?_, ?_⟩
  · intro shards nEpisodes actionHorizon seed out info h
    exact collectSuite_linedUp h
  · intro shards args files h
    exact collectMain_form h
  · intro suites requested indices hform h
    obtain ⟨parts, hparts, h⟩ := Option.bind_eq_some_iff.1 h
    obtain ⟨-, rfl⟩ := concatenate_eq_some h
    obtain ⟨hbounds, hnd, hlen, hmem⟩ := suitesFrames_spec requested hform hparts
    refine ⟨?_, hnd, parts, rfl, hlen, ?_⟩
    · intro i hi
      have hb := hbounds i hi
      omega
    · intro k suite episodes frames hsuite hepisodes hframes i
      have hspec := hmem k suite episodes frames hsuite hepisodes hframes i
      rwa [Nat.zero_add] at hspec

end Result

section Sample

def plainWorld : World Bytes Unit where
  lowerStrip := String.ofList
  random _ := ()
  sample rng avail n := (avail.take n, rng)
  openRgb bytes := some bytes
  shape _ := (224, 224)
  resize img := img
  zerosLike img := img

def lenField (tag : UInt8) (payload : Bytes) : Bytes :=
  tag :: payload.length.toUInt8 :: payload

/-- A tf.Example with an instruction and two images. -/
def goEpisode : Bytes :=
  lenField 0x0A (lenField 0x0A (lenField 0x0A (encodeUtf8 languageKey) ++
    lenField 0x12 (lenField 0x0A (lenField 0x0A [103, 111]))) ++
    lenField 0x0A (lenField 0x0A (encodeUtf8 imageKey) ++
      lenField 0x12 (lenField 0x0A (lenField 0x0A [1] ++ lenField 0x0A [2]))))

theorem Encoded.lenField (number : Nat) (tag : UInt8) (payload : Bytes) {rest : Bytes}
    (htag : tag.toNat < 128 ∧ tag.toNat = 8 * number + 2) (hsize : payload.length < 128)
    (h : Encoded fields rest) :
    Encoded (⟨number, .len payload⟩ :: fields) (lenField tag payload ++ rest) :=
  Encoded.short number tag _ payload htag (toNat_toUInt8 hsize) h

theorem entryEnc_bytes (key : List Char) {values : List Bytes} {list : Bytes} {fields : List Field}
    (henc : Encoded fields list) (hvalues : payloads 1 fields = values)
    (hkey : (encodeUtf8 key).length < 60) (hlist : list.length < 60) :
    EntryEnc false (key, .bytes values)
      (lenField 0x0A (encodeUtf8 key) ++ (lenField 0x12 (lenField 0x0A list ++ []) ++ [])) := by
  subst hvalues
  refine ⟨_, _, [], Encoded.lenField 1 0x0A _ (by decide) (by omega) (Encoded.lenField 2 0x12 _
    (by decide) ?_ .nil), rfl, rfl, _, list, Encoded.lenField 1 0x0A list (by decide) (by omega)
      .nil, .bytes henc, ?_⟩
  · simp only [lenField, List.length_cons, List.length_append, List.length_nil]
    omega
  · rintro k (rfl | rfl | rfl) <;> rfl

theorem parse_goEpisode : parseExample goEpisode wantedKeys =
    .ok [(languageKey, some (.bytes [[103, 111]])), (imageKey, some (.bytes [[1], [2]]))] := by
  have hvalue (bs : Bytes) (hbs : bs.length < 128) {fields : List Field} {rest : Bytes}
      (h : Encoded fields rest) :
      Encoded (⟨1, .len bs⟩ :: fields) (lenField 0x0A bs ++ rest) :=
    Encoded.lenField 1 0x0A bs (by decide) hbs h
  have hlang := entryEnc_bytes languageKey
    (hvalue [103, 111] (by decide) .nil) rfl (by decide) (by decide)
  have himg := entryEnc_bytes imageKey
    (hvalue [1] (by decide) (hvalue [2] (by decide) .nil)) rfl (by decide) (by decide)
  have hex : ExampleEnc false [(languageKey, .bytes [[103, 111]]), (imageKey, .bytes [[1], [2]])]
      goEpisode := by
    refine ⟨_, hvalue _ ?_ .nil, .inr ⟨_, _, rfl, hvalue _ ?_ (hvalue _ ?_ .nil),
      .cons hlang (.cons himg .nil)⟩⟩ <;> decide
  rw [parseExample_encoded hex]
  decide

def goShard : Bytes := leBytes 8 goEpisode.length ++ [0, 0, 0, 0] ++ goEpisode ++ [0, 0, 0, 0]

theorem iterEpisodes_goShard : iterEpisodes [goShard] = some
    [[(languageKey, some (.bytes [[103, 111]])), (imageKey, some (.bytes [[1], [2]]))]] := by
  have hrecords : [goShard].mapM (fun shard => iterTfrecord shard.length shard) =
      some [[goEpisode]] := by decide
  rw [iterEpisodes, hrecords]
  change [goEpisode].mapM (fun raw => (parseExample raw wantedKeys).toOption) = _
  rw [List.mapM_cons, parse_goEpisode]
  rfl

theorem collectSuite_goShard : collectSuite plainWorld [goShard] 1 3 0 = some
    (⟨[([1], [1], [1]), ([2], [2], [2])], [List.replicate 8 0, List.replicate 8 0],
      List.replicate 2 (List.replicate 3 (List.replicate 7 0)), ["go", "go"]⟩, [⟨"go", 2⟩]) := by
  have hlang : decodeUtf8 [103, 111] = some ['g', 'o'] := decodeUtf8_encodeUtf8 ['g', 'o']
  have hindex : indexEpisodesByTask plainWorld
      [[(languageKey, some (.bytes [[103, 111]])), (imageKey, some (.bytes [[1], [2]]))]] =
        some [("go", [0])] := by
    change (do
      let lang ← (decodeUtf8 [103, 111]).map String.ofList
      if lang = "" then pure ([] : Dict String (List Nat)) else pure [(lang, [0])]) >>= pure = _
    rw [hlang]
    decide
  simp only [collectSuite, iterEpisodes_goShard, Option.bind_eq_bind, Option.bind_some, hindex]
  decide +kernel

end Sample

/-- Two steps are collected with chunks past the end of their episode, and of three episodes of a
task the first two are selected. -/
theorem calibration_lines_up_two :
    (∃ eps, eps.Sublist (readable [goShard]) ∧ LinedUp 3 eps
      (⟨[([1], [1], [1]), ([2], [2], [2])], [List.replicate 8 0, List.replicate 8 0],
        List.replicate 2 (List.replicate 3 (List.replicate 7 0)), ["go", "go"]⟩ : SuiteData Bytes)
      [⟨"go", 2⟩]) ∧
    ([0, 1, 2] : List Nat).Nodup := by
  have hall := calibration_lines_up plainWorld
  have hform : ∀ suite ∈ [(⟨"libero_goal_no_noops",
      some [⟨"a", 2⟩, ⟨"a", 1⟩, ⟨"a", 3⟩], 6⟩ : Suite)],
      ∃ episodes, OfEpisodes suite episodes := by
    intro suite hsuite
    rw [List.mem_singleton.1 hsuite]
    exact ⟨_, rfl, rfl⟩
  have hselected : selectedFrames [⟨"libero_goal_no_noops",
      some [⟨"a", 2⟩, ⟨"a", 1⟩, ⟨"a", 3⟩], 6⟩] (fun _ => some 2) = some [0, 1, 2] := by
    decide +kernel
  exact ⟨hall.1 _ _ _ _ _ _ collectSuite_goShard, (hall.2.2 _ _ _ hform hselected).2.1⟩

end ActQuant.Fisher
