import ActQuant.Fisher.TfExample
import ActQuant.Hsic.Samples

namespace ActQuant.Fisher
open ActQuant.Lib ActQuant.Hsic

def suiteToDataset : SuiteKey → String
  | .spatial => "libero_spatial_no_noops"
  | .object => "libero_object_no_noops"
  | .goal => "libero_goal_no_noops"
  | .long => "libero_10_no_noops"

def stateDim : Nat := 8
def actionDim : Nat := 7
def imageSize : Nat := 224

def imageKey : List Char := "steps/observation/image".toList
def wristImageKey : List Char := "steps/observation/wrist_image".toList
def stateKey : List Char := "steps/observation/state".toList
def actionKey : List Char := "steps/action".toList
def languageKey : List Char := "steps/language_instruction".toList

def wantedKeys : List (List Char) :=
  [imageKey, wristImageKey, stateKey, actionKey, languageKey]

/-- `_iter_tfrecord`, up to so many records; none is a length that Python cannot read. -/
def iterTfrecord : Nat → Bytes → Option (List Bytes)
  | 0, _ => some []
  | turns + 1, file =>
    if file.length < 8 then some []
    else
      let length := ofLe (file.take 8)
      let rest := (file.drop 8).drop 4
      if 2 ^ 63 ≤ length then none
      else if rest.length < length then some []
      else do
        let records ← iterTfrecord turns ((rest.drop length).drop 4)
        return rest.take length :: records

def Parse.toOption : Parse α → Option α
  | .ok a => some a
  | _ => none

/-- The episodes of the shards; none where one of them cannot be parsed. -/
def iterEpisodes (shards : List Bytes) : Option (List Parsed) := do
  let records ← shards.mapM fun shard => iterTfrecord shard.length shard
  records.flatten.mapM fun raw => (parseExample raw wantedKeys).toOption

/-- What the program takes from the standard library and from Pillow: `str.lower` and `str.strip`,
the generator of `random` and the images. -/
structure World (Image Rng : Type) where
  lowerStrip : List Char → String
  random : Int → Rng
  sample : Rng → List Nat → Nat → List Nat × Rng
  openRgb : Bytes → Option Image
  shape : Image → Nat × Nat
  resize : Image → Image
  zerosLike : Image → Image

variable {Image Rng : Type} (W : World Image Rng)

def episodeFirstLang (feat : Parsed) : Option String :=
  match feat.lookup languageKey with
  | some (some (.bytes (text :: _))) => (decodeUtf8 text).map W.lowerStrip
  | _ => some ""

def resizeUint8 (img : Image) : Image :=
  if W.shape img = (imageSize, imageSize) then img else W.resize img

def indexEpisodesByTask (episodes : List Parsed) : Option (Dict String (List Nat)) :=
  episodes.zipIdx.foldlM (fun byTask (feat, epIdx) => do
    let lang ← episodeFirstLang W feat
    if lang = "" then return byTask
    else return byTask.append lang epIdx) []

/-- The locals of the loop of `stratified_select`. -/
structure TaskSelection (Rng : Type) where
  rng : Rng
  selected : List Nat
  epToTask : Dict Nat String

def selectTask (perTask : Int) (s : TaskSelection Rng) (task : String × List Nat) :
    Option (TaskSelection Rng) :=
  if task.2.length < perTask ∨ perTask < 0 then none
  else
    let (chosen, rng) := W.sample s.rng task.2 perTask.toNat
    some
      { rng
        selected := chosen.foldl (fun selected ep => selected.insert ep) s.selected
        epToTask := chosen.foldl (fun d ep => d.set ep task.1) s.epToTask }

def stratifiedSelect (byTask : Dict String (List Nat)) (nEpisodes seed : Int) :
    Option (List Nat × Dict Nat String) :=
  let nTasks := byTask.length
  if nTasks = 0 then none
  else if nEpisodes % nTasks ≠ 0 then none
  else do
    let perTask := nEpisodes / nTasks
    let tasks := byTask.mergeSort fun a b => decide (a.1 ≤ b.1)
    let s ← tasks.foldlM (selectTask W perTask) ⟨W.random seed, [], []⟩
    return (s.selected, s.epToTask)

/-- `feat.get(key, ("none", []))[1]`, with the default given. -/
def getList (feat : Parsed) (key : List Char) (default : Feature) : Option Feature :=
  match feat.lookup key with
  | none => some default
  | some feature => feature

def Feature.len : Feature → Nat
  | .bytes values => values.length
  | .floats values => values.length

/-- An entry of a list of images; a single is four bytes to `BytesIO`. -/
def Feature.item : Feature → Nat → Option Bytes
  | .bytes values, i => values[i]?
  | .floats values, i => values[i]?.map fun bits => leBytes 4 bits.toNat

/-- Empty bytes are false, and so are both zeros. -/
def Feature.truthy : Feature → Nat → Bool
  | .bytes values, i => values[i]?.any (· ≠ [])
  | .floats values, i => values[i]?.any fun bits => bits ≠ 0 ∧ bits ≠ 0x80000000

/-- `arr.reshape(-1, dim)`, or rows of zeros for an array without elements. -/
def perStep (nSteps dim : Nat) : Feature → Option (List (List UInt32))
  | .bytes _ => none
  | .floats arr =>
    if arr.length = 0 then some (List.replicate nSteps (List.replicate dim 0))
    else if arr.length % dim = 0 then
      some ((List.range (arr.length / dim)).map fun r => slice arr (r * dim) (r * dim + dim))
    else none

/-- An episode that is collected: its images and its rows. -/
structure EpisodeRows where
  imgList : Feature
  wristList : Feature
  statePerStep : List (List UInt32)
  actionPerStep : List (List UInt32)

def EpisodeRows.nSteps (ep : EpisodeRows) : Nat := ep.imgList.len

/-- The first half of a turn of `collect_suite`; the inner none is an episode skipped. -/
def readEpisode (feat : Parsed) : Option (Option EpisodeRows) := do
  let imgList ← getList feat imageKey (.bytes [])
  let wristList ← getList feat wristImageKey (.bytes [])
  let stateArr ← getList feat stateKey (.floats [])
  let actionArr ← getList feat actionKey (.floats [])
  let nSteps := imgList.len
  if nSteps = 0 then return none
  else
    let statePerStep ← perStep nSteps stateDim stateArr
    let actionPerStep ← perStep nSteps actionDim actionArr
    if statePerStep.length ≠ nSteps ∨ actionPerStep.length ≠ nSteps then return none
    else return some ⟨imgList, wristList, statePerStep, actionPerStep⟩

def cams3 (ep : EpisodeRows) (i : Nat) : Option (Image × Image × Image) := do
  let baseImg ← (ep.imgList.item i).bind W.openRgb
  let wristImg ← if ep.wristList.truthy i then (ep.wristList.item i).bind W.openRgb
    else some (W.zerosLike baseImg)
  let baseResized := resizeUint8 W baseImg
  return (baseResized, resizeUint8 W wristImg, W.zerosLike baseResized)

/-- `rows[start:stop]` of Python. -/
def pySlice (rows : List α) (start : Nat) (stop : Int) : List α :=
  slice rows start (if stop < 0 then stop + rows.length else stop).toNat

/-- The action chunk of a step; none is the assertion of its shape. -/
def actionChunk (rows : List α) (nSteps : Nat) (actionHorizon : Int) (i : Nat) :
    Option (List α) :=
  let stop := min (i + actionHorizon) nSteps
  let chunk := pySlice rows i stop
  let chunk :=
    if (chunk.length : Int) < actionHorizon then
      chunk ++ (List.replicate (actionHorizon - chunk.length).toNat
        (chunk.drop (chunk.length - 1))).flatten
    else chunk
  if (chunk.length : Int) = actionHorizon then some chunk else none

structure SuiteData (Image : Type) where
  pixelValues : List (Image × Image × Image)
  state : List (List UInt32)
  gtActions : List (List (List UInt32))
  prompts : List String
  deriving DecidableEq

deriving instance DecidableEq for Episode

def SuiteData.empty : SuiteData Image := ⟨[], [], [], []⟩

/-- A turn of the loop over the steps of an episode. -/
def collectStep (actionHorizon : Int) (ep : EpisodeRows) (task : String) (out : SuiteData Image)
    (i : Nat) : Option (SuiteData Image) := do
  let cams ← cams3 W ep i
  let chunk ← actionChunk ep.actionPerStep ep.nSteps actionHorizon i
  let state ← ep.statePerStep[i]?
  return {
    pixelValues := out.pixelValues ++ [cams]
    state := out.state ++ [state]
    gtActions := out.gtActions ++ [chunk]
    prompts := out.prompts ++ [task] }

/-- The locals of the loop of `collect_suite`. -/
structure CollectState (Image : Type) where
  out : SuiteData Image
  episodeInfo : List Episode
  nDone : Nat

def collectEpisodes (actionHorizon : Int) (selected : List Nat) (epToTask : Dict Nat String) :
    CollectState Image → List (Parsed × Nat) → Option (CollectState Image)
  | s, [] => some s
  | s, (feat, epIdx) :: episodes =>
    if ¬ selected.contains epIdx then
      collectEpisodes actionHorizon selected epToTask s episodes
    else do
      match ← readEpisode feat with
      | none => collectEpisodes actionHorizon selected epToTask s episodes
      | some ep =>
        let task ← epToTask.lookup epIdx
        let out ← (List.range ep.nSteps).foldlM (collectStep W actionHorizon ep task) s.out
        let s := ⟨out, s.episodeInfo ++ [⟨task, ep.nSteps⟩], s.nDone + 1⟩
        if selected.length ≤ s.nDone then some s
        else collectEpisodes actionHorizon selected epToTask s episodes

def collectSuite (shards : List Bytes) (nEpisodes actionHorizon seed : Int) :
    Option (SuiteData Image × List Episode) := do
  let episodes ← iterEpisodes shards
  let byTask ← indexEpisodesByTask W episodes
  let (selected, epToTask) ← stratifiedSelect W byTask nEpisodes seed
  let s ← collectEpisodes W actionHorizon selected epToTask ⟨.empty, [], 0⟩ episodes.zipIdx
  return (s.out, s.episodeInfo)

structure CalibArgs where
  episodes : SuiteKey → Int
  actionHorizon : Int
  seed : Int

/-- The files that `main` writes; of the metadata what the selection of frames reads. -/
structure CalibFiles (Image : Type) where
  data : SuiteData Image
  totalFrames : Nat
  suites : List Suite

def suiteEps : List SuiteKey := [.spatial, .object, .goal, .long]

def collectMain (shards : SuiteKey → List Bytes) (args : CalibArgs) :
    Option (CalibFiles Image) := do
  let suites ← suiteEps.mapM fun suite => do
    let (out, epInfo) ← collectSuite W (shards suite) (args.episodes suite) args.actionHorizon
      args.seed
    return (out, (⟨suiteToDataset suite, some epInfo, out.pixelValues.length⟩ : Suite))
  let data : SuiteData Image :=
    { pixelValues := suites.flatMap (·.1.pixelValues)
      state := suites.flatMap (·.1.state)
      gtActions := suites.flatMap (·.1.gtActions)
      prompts := suites.flatMap (·.1.prompts) }
  if data.pixelValues = [] then none
  else return ⟨data, data.pixelValues.length, suites.map (·.2)⟩

/-- The frames `compute_fisher.py` keeps for a dictionary of requests; a request that is absent is
`-1`, and whatever is not positive asks for all frames. -/
def selectedFrames (suites : List Suite) (requested : SuiteKey → Option Int) : Option (List Nat) :=
  stratifiedFrameIndices suites fun k => ((requested k).getD (-1)).toNat


/-- `[a_min(i, n-1), a_min(i+1, n-1), ..., a_min(i+H-1, n-1)]` for the rows of an episode. -/
def IsChunk (actionHorizon : Int) (rows : List α) (i : Nat) (chunk : List α) : Prop :=
  (chunk.length : Int) = actionHorizon ∧
    ∀ j < chunk.length, chunk[j]? = rows[min (i + j) (rows.length - 1)]?

section Chunk

/-- A list with copies of its last item behind it. -/
theorem getElem?_pad_last (hne : xs ≠ []) (m : Nat) (hj : j < xs.length + m) :
    (xs ++ (List.replicate m (xs.drop (xs.length - 1))).flatten)[j]? =
      xs[min j (xs.length - 1)]? := by
  have hpos := List.length_pos_iff.2 hne
  rw [List.drop_length_sub_one hne, List.flatten_replicate_singleton]
  by_cases hlt : j < xs.length
  · rw [List.getElem?_append_left hlt, Nat.min_eq_left (by omega)]
  · rw [List.getElem?_append_right (by omega), List.getElem?_replicate_of_lt (by omega),
      Nat.min_eq_right (by omega), List.getLast_eq_getElem, List.getElem?_eq_getElem]

/-- The rows from a step up to the end of its chunk or of the episode. -/
theorem pySlice_rows {rows : List α} {actionHorizon : Int} (hH : 0 ≤ actionHorizon)
    (hi : i < rows.length) :
    let xs := pySlice rows i (min (i + actionHorizon) rows.length)
    xs.length = min actionHorizon.toNat (rows.length - i) ∧
      ∀ k < xs.length, xs[k]? = rows[i + k]? := by
  have hstop : ¬ min (i + actionHorizon) rows.length < 0 := by omega
  have hlen : (pySlice rows i (min (i + actionHorizon) rows.length)).length =
      min actionHorizon.toNat (rows.length - i) := by
    rw [pySlice, if_neg hstop, slice, List.length_take, List.length_drop]
    omega
  refine ⟨hlen, ?_⟩
  intro k hk
  rw [hlen] at hk
  rw [pySlice, if_neg hstop, slice, List.getElem?_take_of_lt (by omega), List.getElem?_drop]

theorem actionChunk_isChunk {rows : List α} (hlen : rows.length = nSteps) (hi : i < nSteps)
    (h : actionChunk rows nSteps actionHorizon i = some chunk) :
    IsChunk actionHorizon rows i chunk := by
  subst hlen
  have hslice := fun hH : 0 ≤ actionHorizon => pySlice_rows hH hi
  simp only [actionChunk] at h
  generalize pySlice rows i (min (i + actionHorizon) rows.length) = xs at h hslice
  by_cases hshort : (xs.length : Int) < actionHorizon
  · obtain ⟨hxs, hget⟩ := hslice (by omega)
    have hne : xs ≠ [] := by
      apply List.ne_nil_of_length_pos
      rw [hxs]
      omega
    simp only [if_pos hshort] at h
    obtain ⟨hshape, hchunk⟩ := Option.ite_none_right_eq_some.1 h
    cases hchunk
    refine ⟨hshape, ?_⟩
    intro j hj
    have hj' : j < xs.length + (actionHorizon - xs.length).toNat := by
      have hall : (j : Int) < actionHorizon := by omega
      omega
    rw [getElem?_pad_last hne _ hj', hget _ (by omega)]
    congr 1
    omega
  · simp only [if_neg hshort] at h
    obtain ⟨hshape, hchunk⟩ := Option.ite_none_right_eq_some.1 h
    cases hchunk
    obtain ⟨hxs, hget⟩ := hslice (by omega)
    refine ⟨hshape, ?_⟩
    intro j hj
    rw [hget j hj, Nat.min_eq_left (by omega)]

end Chunk

section Episodes
variable {Image Rng : Type} {W : World Image Rng}

theorem readEpisode_lengths (h : readEpisode feat = some (some ep)) :
    ep.statePerStep.length = ep.nSteps ∧ ep.actionPerStep.length = ep.nSteps := by
  obtain ⟨imgList, _, h⟩ := Option.bind_eq_some_iff.1 h
  obtain ⟨wristList, _, h⟩ := Option.bind_eq_some_iff.1 h
  obtain ⟨stateArr, _, h⟩ := Option.bind_eq_some_iff.1 h
  obtain ⟨actionArr, _, h⟩ := Option.bind_eq_some_iff.1 h
  dsimp only at h
  split at h
  case isTrue => cases h
  case isFalse =>
    obtain ⟨statePerStep, _, h⟩ := Option.bind_eq_some_iff.1 h
    obtain ⟨actionPerStep, _, h⟩ := Option.bind_eq_some_iff.1 h
    split at h
    case isTrue => cases h
    case isFalse hsame =>
      cases h
      rw [not_or, not_not, not_not] at hsame
      exact hsame

/-- What an episode adds to the data, after so many of its steps. -/
structure Adds (actionHorizon : Int) (ep : EpisodeRows) (n : Nat) (out out' : SuiteData Image) :
    Prop where
  pixelValues : out'.pixelValues.length = out.pixelValues.length + n
  state : out'.state.length = out.state.length + n
  prompts : out'.prompts.length = out.prompts.length + n
  gtActions : ∃ chunks, out'.gtActions = out.gtActions ++ chunks ∧ chunks.length = n ∧
    ∀ i chunk, chunks[i]? = some chunk → IsChunk actionHorizon ep.actionPerStep i chunk

theorem Adds.step {out out' out'' : SuiteData Image} (h : Adds actionHorizon ep i out out')
    (hlen : ep.actionPerStep.length = ep.nSteps) (hi : i < ep.nSteps)
    (hstep : collectStep W actionHorizon ep task out' i = some out'') :
    Adds actionHorizon ep (i + 1) out out'' := by
  obtain ⟨cams, _, hstep⟩ := Option.bind_eq_some_iff.1 hstep
  obtain ⟨chunk, hchunk, hstep⟩ := Option.bind_eq_some_iff.1 hstep
  obtain ⟨state, _, hstep⟩ := Option.bind_eq_some_iff.1 hstep
  cases hstep
  obtain ⟨chunks, hout, hn, hchunks⟩ := h.gtActions
  constructor
  case pixelValues => rw [List.length_append, h.pixelValues, List.length_singleton, Nat.add_assoc]
  case state => rw [List.length_append, h.state, List.length_singleton, Nat.add_assoc]
  case prompts => rw [List.length_append, h.prompts, List.length_singleton, Nat.add_assoc]
  case gtActions =>
    refine ⟨chunks ++ [chunk], ?_, ?_, ?_⟩
    · rw [hout, List.append_assoc]
    · rw [List.length_append, hn, List.length_singleton]
    · intro k c hc
      rcases Nat.lt_or_ge k chunks.length with hk | hk
      · rw [List.getElem?_append_left hk] at hc
        exact hchunks k c hc
      · rw [List.getElem?_append_right hk] at hc
        have hk' : k = i := by
          have hlt := (List.getElem?_eq_some_iff.1 hc).1
          rw [List.length_singleton] at hlt
          omega
        subst hk'
        rw [hn, Nat.sub_self, List.getElem?_cons_zero] at hc
        cases hc
        exact actionChunk_isChunk hlen hi hchunk

/-- The loop over the steps of an episode. -/
theorem Adds.run {out out' : SuiteData Image} (hlen : ep.actionPerStep.length = ep.nSteps)
    (hn : n ≤ ep.nSteps)
    (h : (List.range n).foldlM (collectStep W actionHorizon ep task) out = some out') :
    Adds actionHorizon ep n out out' := by
  induction n generalizing out' with
  | zero =>
    cases h
    exact ⟨rfl, rfl, rfl, [], (List.append_nil _).symm, rfl, fun _ _ hc => by cases hc⟩
  | succ n ih =>
    rw [List.range_succ, List.foldlM_append] at h
    obtain ⟨mid, hmid, h⟩ := Option.bind_eq_some_iff.1 h
    obtain ⟨last, hlast, h⟩ := Option.bind_eq_some_iff.1 h
    cases h
    exact (ih (Nat.le_of_succ_le hn) hmid).step hlen hn hlast

/-- How the arrays and the metadata of a suite lie for the episodes collected so far. -/
structure LinedUp (actionHorizon : Int) (eps : List EpisodeRows) (out : SuiteData Image)
    (info : List Episode) : Prop where
  counts : info.map (·.numFrames) = eps.map (·.nSteps)
  pixelValues : out.pixelValues.length = (info.map (·.numFrames)).sum
  state : out.state.length = (info.map (·.numFrames)).sum
  gtActions : out.gtActions.length = (info.map (·.numFrames)).sum
  prompts : out.prompts.length = (info.map (·.numFrames)).sum
  rows : ∀ ep ∈ eps, ep.actionPerStep.length = ep.nSteps
  chunks : ∀ e ep i, eps[e]? = some ep → i < ep.nSteps →
    ∃ chunk, out.gtActions[((info.take e).map (·.numFrames)).sum + i]? = some chunk ∧
      IsChunk actionHorizon ep.actionPerStep i chunk

theorem LinedUp.empty (actionHorizon : Int) :
    LinedUp actionHorizon [] (.empty : SuiteData Image) [] :=
  ⟨rfl, rfl, rfl, rfl, rfl, fun _ h => (nomatch h), fun _ _ _ h => (nomatch h)⟩

theorem LinedUp.snoc {out out' : SuiteData Image} (h : LinedUp actionHorizon eps out info)
    (hlen : ep.actionPerStep.length = ep.nSteps) (hadds : Adds actionHorizon ep ep.nSteps out out')
    (task : String) :
    LinedUp actionHorizon (eps ++ [ep]) out' (info ++ [⟨task, ep.nSteps⟩]) := by
  have hsum : ((info ++ [(⟨task, ep.nSteps⟩ : Episode)]).map (·.numFrames)).sum =
      (info.map (·.numFrames)).sum + ep.nSteps := by
    rw [List.map_append, List.sum_append, List.map_singleton, List.sum_singleton]
  have hcount : info.length = eps.length := by
    have hmaps := congrArg List.length h.counts
    rwa [List.length_map, List.length_map] at hmaps
  obtain ⟨chunks, hout, hn, hchunks⟩ := hadds.gtActions
  constructor
  case counts => rw [List.map_append, List.map_append, h.counts]; rfl
  case pixelValues => rw [hsum, hadds.pixelValues, h.pixelValues]
  case state => rw [hsum, hadds.state, h.state]
  case gtActions => rw [hsum, hout, List.length_append, hn, h.gtActions]
  case prompts => rw [hsum, hadds.prompts, h.prompts]
  case rows =>
    intro ep' hep'
    rcases List.mem_append.1 hep' with hep' | hep'
    · exact h.rows ep' hep'
    · rw [List.mem_singleton.1 hep']
      exact hlen
  case chunks =>
    intro e ep' i hep' hi
    rcases Nat.lt_or_ge e eps.length with he | he
    · rw [List.getElem?_append_left he] at hep'
      obtain ⟨chunk, hget, hchunk⟩ := h.chunks e ep' i hep' hi
      refine ⟨chunk, ?_, hchunk⟩
      rw [List.take_append_of_le_length (by omega), hout,
        List.getElem?_append_left (List.getElem?_eq_some_iff.1 hget).1, hget]
    · rw [List.getElem?_append_right he] at hep'
      have he' : e = eps.length := by
        have hlt := (List.getElem?_eq_some_iff.1 hep').1
        rw [List.length_singleton] at hlt
        omega
      rw [he', Nat.sub_self, List.getElem?_cons_zero] at hep'
      cases hep'
      have hi' : i < chunks.length := by rw [hn]; exact hi
      refine ⟨chunks[i], ?_, hchunks i _ (List.getElem?_eq_getElem hi')⟩
      rw [he', ← hcount, List.take_left, hout, ← h.gtActions,
        List.getElem?_append_right (Nat.le_add_right _ _), Nat.add_sub_cancel_left,
        List.getElem?_eq_getElem hi']

/-- The loop over the episodes. -/
theorem collectEpisodes_linedUp {s t : CollectState Image} {episodes : List (Parsed × Nat)}
    (hs : LinedUp actionHorizon eps s.out s.episodeInfo)
    (h : collectEpisodes W actionHorizon selected epToTask s episodes = some t) :
    ∃ more, more.Sublist (episodes.filterMap fun feat => (readEpisode feat.1).join) ∧
      LinedUp actionHorizon (eps ++ more) t.out t.episodeInfo := by
  induction episodes generalizing s eps with
  | nil =>
    cases h
    exact ⟨[], .slnil, by rwa [List.append_nil]⟩
  | cons feat episodes ih =>
    have hskip (h : collectEpisodes W actionHorizon selected epToTask s episodes = some t) :
        ∃ more, more.Sublist ((feat :: episodes).filterMap fun feat => (readEpisode feat.1).join) ∧
          LinedUp actionHorizon (eps ++ more) t.out t.episodeInfo := by
      obtain ⟨more, hsub, hmore⟩ := ih hs h
      exact ⟨more, hsub.trans ((List.sublist_cons_self feat episodes).filterMap _), hmore⟩
    rw [collectEpisodes] at h
    by_cases hsel : ¬ selected.contains feat.2
    · rw [if_pos hsel] at h
      exact hskip h
    · rw [if_neg hsel] at h
      obtain ⟨read, hread, h⟩ := Option.bind_eq_some_iff.1 h
      cases read with
      | none => exact hskip h
      | some ep =>
        obtain ⟨task, _, h⟩ := Option.bind_eq_some_iff.1 h
        obtain ⟨out, hout, h⟩ := Option.bind_eq_some_iff.1 h
        have hlen := (readEpisode_lengths hread).2
        have hnext := hs.snoc hlen (Adds.run hlen (Nat.le_refl _) hout) task
        have hcons : (feat :: episodes).filterMap (fun feat => (readEpisode feat.1).join) =
            ep :: episodes.filterMap fun feat => (readEpisode feat.1).join :=
          List.filterMap_cons_some (by rw [hread]; rfl)
        rw [hcons]
        dsimp only at h
        split at h
        case isTrue =>
          cases h
          exact ⟨[ep], List.singleton_sublist.2 (.head _), hnext⟩
        case isFalse =>
          obtain ⟨more, hsub, hmore⟩ := ih hnext h
          refine ⟨ep :: more, hsub.cons_cons ep, ?_⟩
          rwa [List.append_assoc, List.singleton_append] at hmore

/-- The episodes of the shards that can be collected. -/
def readable (shards : List Bytes) : List EpisodeRows :=
  ((iterEpisodes shards).getD []).filterMap fun feat => (readEpisode feat).join

theorem collectSuite_linedUp {shards : List Bytes}
    (h : collectSuite W shards nEpisodes actionHorizon seed = some (out, info)) :
    ∃ eps, eps.Sublist (readable shards) ∧ LinedUp actionHorizon eps out info := by
  obtain ⟨episodes, hepisodes, h⟩ := Option.bind_eq_some_iff.1 h
  obtain ⟨byTask, _, h⟩ := Option.bind_eq_some_iff.1 h
  obtain ⟨⟨selected, epToTask⟩, _, h⟩ := Option.bind_eq_some_iff.1 h
  obtain ⟨s, hs, h⟩ := Option.bind_eq_some_iff.1 h
  cases h
  obtain ⟨eps, hsub, hlined⟩ := collectEpisodes_linedUp (.empty actionHorizon) hs
  refine ⟨eps, ?_, hlined⟩
  have hread : episodes.zipIdx.filterMap (fun feat => (readEpisode feat.1).join) =
      readable shards := by
    rw [readable, hepisodes, Option.getD_some]
    conv_rhs => rw [← List.zipIdx_map_fst 0 episodes, List.filterMap_map]
    rfl
  rwa [hread] at hsub

end Episodes

end ActQuant.Fisher
