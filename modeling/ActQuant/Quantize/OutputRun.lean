import ActQuant.Quantize.OutputLayout

namespace ActQuant.Quantize
open ActQuant.Lib ActQuant.Gguf ActQuant.Quant

variable {State Entry : Type} (s : Settings State Entry) (ml : ModelLoader)

/-- What is written for each tensor, in the order of the loop. -/
def encodeTensors (mapped : List (Nat × Bytes)) : State → List Kept → Option (List Encoded)
  | _, [] => some []
  | st, k :: kept =>
    (loadTensor s ml mapped st k).bind fun new =>
      (encodeTensors mapped new.2 kept).map (⟨k, new.1.1, new.1.2⟩ :: ·)

def keptIn (kept : List Kept) (i : Nat) : List Kept := kept.filter fun k => splitOf s k = i

def encodedIn (tensors : List Encoded) (i : Nat) : List Encoded :=
  tensors.filter fun e => splitOf s e.kept = i

/-- The tensors of a split, of which some are written. -/
def splitInfos (done : List Encoded) (rest : List Kept) (i : Nat) : List TensorInfo :=
  (encodedIn s done i).map Encoded.info ++ (keptIn s rest i).map Kept.info

/-- The loop between two tensors: the headers, the file that is open and those that are closed. -/
structure StreamInv (heads : Contexts) (done : List Encoded) (rest : List Kept)
    (st : Stream State) : Prop where
  ctxs : ∀ i ctx, st.ctxs i = some ctx → ∃ head, heads i = some head ∧ ctx.kvs = head.kvs ∧
    HeaderOf (splitInfos s done rest i) ctx
  sizes : ∀ e ∈ done, e.data.length = e.info.ggmlNbytes
  placeholder : ∀ ctx, st.ctxs st.index = some ctx → st.placeholder = ctx.paddedMeta.length
  chunks : st.chunks = (encodedIn s done st.index).map Encoded.data
  le : ∀ k ∈ rest, st.index ≤ splitOf s k
  ge : ∀ e ∈ done, splitOf s e.kept ≤ st.index
  below : ∀ f ∈ st.closed, f.index < st.index
  closed : ∀ f ∈ st.closed, ∃ head, heads f.index = some head ∧
    f.Written head.kvs (encodedIn s done f.index)
  first : st.index = 0 ∨ ∃ f ∈ st.closed, f.index = 0
  keep : s.keepSplit = false → st.index = 0

section Stream
variable {s : Settings State Entry} {ml : ModelLoader} {heads : Contexts} {done : List Encoded}
  {rest : List Kept} {st st' : Stream State} {k : Kept}

theorem encodedIn_append (s : Settings State Entry) (done : List Encoded) (e : Encoded) (i : Nat) :
    encodedIn s (done ++ [e]) i =
      if splitOf s e.kept = i then encodedIn s done i ++ [e] else encodedIn s done i := by
  rw [encodedIn, List.filter_append, ← encodedIn, List.filter_cons, List.filter_nil]
  simp only [decide_eq_true_eq]
  split
  case isTrue => rfl
  case isFalse => rw [List.append_nil]

theorem keptIn_cons (s : Settings State Entry) (k : Kept) (rest : List Kept) (i : Nat) :
    keptIn s (k :: rest) i = if splitOf s k = i then k :: keptIn s rest i else keptIn s rest i := by
  rw [keptIn, List.filter_cons]
  simp only [decide_eq_true_eq]
  rfl

/-- The metadata of a header are as long as before a type was set. -/
theorem length_paddedMeta_eq {infos infos' : List TensorInfo} (h : HeaderOf infos ctx)
    (h' : HeaderOf infos' ctx') (hkvs : ctx'.kvs = ctx.kvs)
    (hinfos : infos'.map TensorInfo.infoBytes = infos.map TensorInfo.infoBytes) :
    ctx'.paddedMeta.length = ctx.paddedMeta.length := by
  have hlen : ctx'.encodeMeta.length = ctx.encodeMeta.length := by
    rw [length_encodeMeta, length_encodeMeta, h.infos, h'.infos, hkvs, metaBytes, hinfos, metaBytes]
  have hpos {ctx : WriterContext} (hinv : ctx.Inv) : 0 < ctx.alignment := by
    rw [hinv.alignment]
    decide
  rw [length_paddedMeta (hpos h.inv), length_paddedMeta (hpos h'.inv), hlen, h.inv.alignment,
    h'.inv.alignment]

theorem writeTensor_eq_some (h : st.writeTensor name new = some st') :
    ∃ ctx ctx' t, st.ctxs st.index = some ctx ∧ ctx.setTensorType name new.1.1 = some ctx' ∧
      ctx'.infos.find? (fun t => t.1.info.name = name) = some t ∧
      t.1.nbytes = new.1.2.length ∧
      st' = { st with
        ctxs := Function.update st.ctxs st.index (some ctx')
        state := new.2
        chunks := st.chunks ++ [new.1.2] } := by
  obtain ⟨ctx, hctx, h⟩ := Option.bind_eq_some_iff.1 h
  obtain ⟨ctx', hset, h⟩ := Option.bind_eq_some_iff.1 h
  obtain ⟨t, hfind, h⟩ := Option.bind_eq_some_iff.1 h
  split at h
  case isTrue => cases h
  case isFalse hsize =>
    cases h
    exact ⟨ctx, ctx', t, hctx, hset, hfind, not_not.1 hsize, rfl⟩

namespace StreamInv

/-- A tensor of the open file is written. -/
theorem writeTensor (h : StreamInv s heads done (k :: rest) st) (hindex : st.index = splitOf s k)
    (hwrite : st.writeTensor k.name new = some st') :
    StreamInv s heads (done ++ [⟨k, new.1.1, new.1.2⟩]) rest st' ∧ st'.state = new.2 := by
  obtain ⟨ctx, ctx', t, hctx, hset, hfind, hsize, rfl⟩ := writeTensor_eq_some hwrite
  obtain ⟨head, hhead, hkvs, hheader⟩ := h.ctxs _ _ hctx
  have hbefore : splitInfos s done (k :: rest) st.index =
      (encodedIn s done st.index).map Encoded.info ++
        k.info :: (keptIn s rest st.index).map Kept.info := by
    rw [splitInfos, keptIn_cons, if_pos hindex.symm, List.map_cons]
  have hafter : splitInfos s (done ++ [⟨k, new.1.1, new.1.2⟩]) rest st.index =
      (encodedIn s done st.index).map Encoded.info ++
        { k.info with type := new.1.1 } :: (keptIn s rest st.index).map Kept.info := by
    rw [splitInfos, encodedIn_append, if_pos hindex.symm, List.map_append, List.append_assoc]
    rfl
  rw [hbefore] at hheader
  obtain ⟨hheader', hkvs', t', hfind', hnbytes⟩ := hheader.setTensorType k.name_nulFree hset
  have hlen : ctx'.paddedMeta.length = ctx.paddedMeta.length := by
    refine length_paddedMeta_eq hheader hheader' hkvs' ?_
    rw [List.map_append, List.map_append]
    rfl
  cases Option.some.inj (hfind.symm.trans hfind')
  rw [← hafter] at hheader'
  have hother (i : Nat) (hi : splitOf s k ≠ i) :
      encodedIn s (done ++ [⟨k, new.1.1, new.1.2⟩]) i = encodedIn s done i := by
    rw [encodedIn_append, if_neg hi]
  refine ⟨{ h with
    ctxs := ?_
    sizes := ?_
    placeholder := ?_
    chunks := ?_
    le := ?_
    ge := ?_
    closed := ?_ }, rfl⟩
  · intro i ctx₁ hctx₁
    change Function.update _ _ _ i = _ at hctx₁
    rw [Function.update_apply] at hctx₁
    split at hctx₁
    case isTrue hi =>
      cases hctx₁
      rw [hi]
      exact ⟨head, hhead, hkvs'.trans hkvs, hheader'⟩
    case isFalse hi =>
      have hne : splitOf s k ≠ i := fun heq => hi (heq.symm.trans hindex.symm)
      have hsame := h.ctxs i ctx₁ hctx₁
      rwa [splitInfos, keptIn_cons, if_neg hne, ← hother i hne] at hsame
  · exact List.forall_mem_append.2 ⟨h.sizes, List.forall_mem_singleton.2 (hsize.symm.trans hnbytes)⟩
  · intro ctx₁ hctx₁
    change Function.update _ _ _ st.index = _ at hctx₁
    rw [Function.update_self] at hctx₁
    cases hctx₁
    exact (h.placeholder ctx hctx).trans hlen.symm
  · change st.chunks ++ [new.1.2] = (encodedIn s _ st.index).map Encoded.data
    rw [encodedIn_append, if_pos hindex.symm, List.map_append, h.chunks]
    rfl
  · exact fun k' hk' => h.le k' (List.mem_cons_of_mem _ hk')
  · exact List.forall_mem_append.2 ⟨h.ge, List.forall_mem_singleton.2 (Nat.le_of_eq hindex.symm)⟩
  · intro f hf
    have hlt := h.below f hf
    rw [hother f.index (by omega)]
    exact h.closed f hf

/-- The file that is open is closed behind its last tensor. -/
theorem closeOfstream (h : StreamInv s heads done rest st)
    (hlast : ∀ k ∈ rest, splitOf s k ≠ st.index) (hclose : st.closeOfstream = some st') :
    ∃ f : OutputFile, st' = { st with closed := st.closed ++ [f] } ∧ f.index = st.index ∧
      ∃ head, heads f.index = some head ∧ f.Written head.kvs (encodedIn s done f.index) := by
  obtain ⟨ctx, hctx, hclose⟩ := Option.bind_eq_some_iff.1 hclose
  dsimp only at hclose
  split at hclose
  case isFalse => cases hclose
  case isTrue hlength =>
    cases hclose
    obtain ⟨head, hhead, hkvs, hheader⟩ := h.ctxs _ _ hctx
    have hnone : keptIn s rest st.index = [] := by
      rw [keptIn, List.filter_eq_nil_iff]
      intro k hk
      rw [decide_eq_true_eq]
      exact hlast k hk
    rw [splitInfos, hnone, List.map_nil, List.append_nil] at hheader
    exact ⟨_, rfl, rfl, head, hhead,
      { header := hheader
        kvs := hkvs
        placeholder := h.placeholder ctx hctx
        chunks := h.chunks
        sizes := fun e he => h.sizes e (List.mem_of_mem_filter he)
        length := hlength }⟩

/-- The next file is opened. -/
theorem newOfstream (h : StreamInv s heads done rest st) {f : OutputFile}
    (hindex : f.index = st.index)
    (hf : ∃ head, heads f.index = some head ∧ f.Written head.kvs (encodedIn s done f.index))
    (hlt : st.index < index) (hle : ∀ k ∈ rest, index ≤ splitOf s k)
    (hkeep : s.keepSplit = true)
    (hnew : ({ st with closed := st.closed ++ [f] } : Stream State).newOfstream index = some st') :
    StreamInv s heads done rest st' ∧ st'.index = index ∧ st'.state = st.state := by
  obtain ⟨ctx, hctx, rfl⟩ := Option.map_eq_some_iff.1 hnew
  refine ⟨{ h with
    placeholder := ?_
    chunks := ?_
    le := hle
    ge := fun e he => Nat.le_of_lt (Nat.lt_of_le_of_lt (h.ge e he) hlt)
    below := ?_
    closed := List.forall_mem_append.2 ⟨h.closed, List.forall_mem_singleton.2 hf⟩
    first := ?_
    keep := ?_ }, rfl, rfl⟩
  · intro ctx₁ hctx₁
    cases hctx.symm.trans hctx₁
    rfl
  · change [] = (encodedIn s done index).map Encoded.data
    have hnone : encodedIn s done index = [] := by
      rw [encodedIn, List.filter_eq_nil_iff]
      intro e he
      have hge := h.ge e he
      rw [decide_eq_true_eq]
      omega
    rw [hnone, List.map_nil]
  · refine List.forall_mem_append.2 ⟨fun f hf => Nat.lt_trans (h.below f hf) hlt, ?_⟩
    rw [List.forall_mem_singleton, hindex]
    exact hlt
  · refine .inr ?_
    obtain hzero | ⟨f₁, hf₁, hzero⟩ := h.first
    · exact ⟨f, List.mem_append_right _ List.mem_cons_self, hindex.trans hzero⟩
    · exact ⟨f₁, List.mem_append_left _ hf₁, hzero⟩
  · intro hno
    rw [hkeep] at hno
    cases hno

/-- The file of the next tensor is open. -/
theorem switchFile (h : StreamInv s heads done (k :: rest) st)
    (hsorted : ∀ k' ∈ rest, splitOf s k ≤ splitOf s k') (hswitch : switchFile s st k = some st') :
    StreamInv s heads done (k :: rest) st' ∧ st'.index = splitOf s k ∧ st'.state = st.state := by
  rw [Quantize.switchFile] at hswitch
  split at hswitch
  case isTrue hne =>
    have hsplit : splitOf s k = k.weight.idx := if_pos hne.2
    obtain ⟨closed, hclose, hnew⟩ := Option.bind_eq_some_iff.1 hswitch
    have hle := h.le k List.mem_cons_self
    have hlt : st.index < splitOf s k := by omega
    have hall : ∀ k' ∈ k :: rest, splitOf s k ≤ splitOf s k' :=
      List.forall_mem_cons.2 ⟨Nat.le_refl _, hsorted⟩
    obtain ⟨f, rfl, hindex, hf⟩ := h.closeOfstream
      (fun k' hk' => Nat.ne_of_gt (Nat.lt_of_lt_of_le hlt (hall k' hk'))) hclose
    rw [← hsplit] at hnew
    exact h.newOfstream hindex hf hlt hall hne.2 hnew
  case isFalse heq =>
    cases hswitch
    refine ⟨h, ?_, rfl⟩
    rw [splitOf]
    split
    case isTrue hkeep => exact (not_not.1 fun hne => heq ⟨hne, hkeep⟩).symm
    case isFalse hkeep => exact h.keep (Bool.eq_false_iff.2 hkeep)

/-- A turn of the loop writes the tensor behind those of its file. -/
theorem processTensor (h : StreamInv s heads done (k :: rest) st)
    (hsorted : ∀ k' ∈ rest, splitOf s k ≤ splitOf s k')
    (hstep : processTensor s ml mapped st k = some st') :
    ∃ new, loadTensor s ml mapped st.state k = some new ∧
      StreamInv s heads (done ++ [⟨k, new.1.1, new.1.2⟩]) rest st' ∧ st'.state = new.2 := by
  obtain ⟨st₁, hswitch, hstep⟩ := Option.bind_eq_some_iff.1 hstep
  obtain ⟨new, hload, hwrite⟩ := Option.bind_eq_some_iff.1 hstep
  obtain ⟨h₁, hindex, hstate⟩ := h.switchFile hsorted hswitch
  rw [hstate] at hload
  obtain ⟨h', hstate'⟩ := h₁.writeTensor hindex hwrite
  exact ⟨new, hload, h', hstate'⟩

/-- The loop writes all tensors. -/
theorem run (h : StreamInv s heads done rest st)
    (hsorted : rest.Pairwise fun k k' => splitOf s k ≤ splitOf s k')
    (hrun : run (Quantize.processTensor s ml mapped) st rest = some st') :
    ∃ tensors, encodeTensors s ml mapped st.state rest = some tensors ∧
      StreamInv s heads (done ++ tensors) [] st' := by
  induction rest generalizing done st with
  | nil =>
    cases hrun
    exact ⟨[], rfl, by rwa [List.append_nil]⟩
  | cons k rest ih =>
    obtain ⟨hfirst, hsorted⟩ := List.pairwise_cons.1 hsorted
    obtain ⟨st₁, hstep, hrun⟩ := Option.bind_eq_some_iff.1 hrun
    obtain ⟨new, hload, h₁, hstate⟩ := h.processTensor hfirst hstep
    obtain ⟨tensors, htensors, h'⟩ := ih h₁ hsorted hrun
    rw [List.append_assoc] at h'
    refine ⟨_ :: tensors, ?_, h'⟩
    rw [encodeTensors, hload, Option.bind_some, ← hstate, htensors]
    rfl

end StreamInv

/-- Every file that is written holds the tensors of its split, and the first file is there. -/
theorem streamTensors_spec
    (hheads : ∀ i head, heads i = some head → HeaderOf ((keptIn s kept i).map Kept.info) head)
    (hsorted : kept.Pairwise fun k k' => splitOf s k ≤ splitOf s k')
    (h : streamTensors s ml mapped heads kept = some files) :
    ∃ tensors, encodeTensors s ml mapped s.start kept = some tensors ∧
      (∀ f ∈ files, ∃ head, heads f.index = some head ∧
        f.Written head.kvs (encodedIn s tensors f.index)) ∧ ∃ f ∈ files, f.index = 0 := by
  obtain ⟨st₀, hopen, h⟩ := Option.bind_eq_some_iff.1 h
  obtain ⟨st, hrun, h⟩ := Option.bind_eq_some_iff.1 h
  obtain ⟨st', hclose, rfl⟩ := Option.map_eq_some_iff.1 h
  obtain ⟨head, hhead, rfl⟩ := Option.map_eq_some_iff.1 hopen
  have hinv : StreamInv s heads [] kept (⟨heads, s.start, 0, head.paddedMeta.length, [], []⟩ :
      Stream State) :=
    { ctxs := fun i ctx hctx => ⟨ctx, hctx, rfl, hheads i ctx hctx⟩
      sizes := List.forall_mem_nil _
      placeholder := fun ctx hctx => by
        cases hhead.symm.trans hctx
        rfl
      chunks := rfl
      le := fun _ _ => Nat.zero_le _
      ge := List.forall_mem_nil _
      below := List.forall_mem_nil _
      closed := List.forall_mem_nil _
      first := .inl rfl
      keep := fun _ => rfl }
  obtain ⟨tensors, htensors, hend⟩ := hinv.run hsorted hrun
  obtain ⟨f, rfl, hindex, hf⟩ := hend.closeOfstream (List.forall_mem_nil _) hclose
  refine ⟨tensors, htensors,
    List.forall_mem_append.2 ⟨hend.closed, List.forall_mem_singleton.2 hf⟩, ?_⟩
  obtain hzero | ⟨f₁, hf₁, hzero⟩ := hend.first
  · exact ⟨f, List.mem_append_right _ List.mem_cons_self, hindex.trans hzero⟩
  · exact ⟨f₁, List.mem_append_left _ hf₁, hzero⟩

end Stream

section Headers
variable {s : Settings State Entry} {done kept : List Kept} {ctxs ctxs' : Contexts}
  {ctx ctx' : WriterContext}

/-- No pair says an alignment. -/
def NoAlignment (kvs : Kvs) : Prop := ∀ kv ∈ kvs, kv.1 ≠ generalAlignment

theorem NoAlignment.setVal (h : NoAlignment ctx.kvs) (hkey : cStr key ≠ generalAlignment)
    (hset : ctx.setVal key type value = some ctx') : NoAlignment ctx'.kvs := by
  obtain ⟨value', heq⟩ := WriterContext.setVal_eq ctx key type value
  rw [heq] at hset
  obtain ⟨kvs, hkvs, hset⟩ := Option.bind_eq_some_iff.1 hset
  split at hset
  case isTrue => cases hset
  case isFalse =>
    cases hset
    rw [ggufSet] at hkvs
    split at hkvs
    case isFalse => cases hkvs
    case isTrue =>
      cases hkvs
      exact List.forall_mem_append.2 ⟨fun kv hkv => h kv (List.mem_of_mem_eraseP hkv),
        List.forall_mem_singleton.2 hkey⟩

theorem NoAlignment.alignment_eq (h : NoAlignment ctx.kvs) (hinv : ctx.Inv) :
    alignment? ctx.kvs = some defaultAlignment := by
  refine (alignment_eq_default_iff hinv).2 ?_
  intro value hmem
  exact (h _ hmem rfl).elim

/-- The headers of the splits, to which some of the tensors are added. -/
structure HeadersInv (s : Settings State Entry) (done : List Kept) (ctxs : Contexts) : Prop where
  header : ∀ i, HeaderOf ((keptIn s done i).map Kept.info) ((ctxs i).getD ggufInitEmpty)
  others : ∀ i, i ≠ 0 → NoAlignment ((ctxs i).getD ggufInitEmpty).kvs

theorem keptIn_append (s : Settings State Entry) (done : List Kept) (k : Kept) (i : Nat) :
    keptIn s (done ++ [k]) i =
      if splitOf s k = i then keptIn s done i ++ [k] else keptIn s done i := by
  rw [keptIn, List.filter_append, ← keptIn, ← keptIn, keptIn_cons]
  split
  case isTrue => rfl
  case isFalse => exact List.append_nil _

theorem HeadersInv.addKept (h : HeadersInv s done ctxs) (hadd : addKept s ctxs k = some ctxs') :
    HeadersInv s (done ++ [k]) ctxs' := by
  obtain ⟨ctx, hnew, rfl⟩ := Option.map_eq_some_iff.1 hadd
  obtain ⟨hheader, hkvs⟩ := (h.header (splitOf s k)).addTensor hnew
  constructor
  · intro i
    rw [Function.update_apply, keptIn_append]
    split
    case isTrue hi =>
      rw [if_pos hi.symm, ← hi, List.map_append]
      exact hheader
    case isFalse hi =>
      rw [if_neg (Ne.symm hi)]
      exact h.header i
  · intro i hi
    rw [Function.update_apply]
    split
    case isTrue heq =>
      rw [Option.getD_some, hkvs, ← heq]
      exact h.others i hi
    case isFalse => exact h.others i hi

theorem HeadersInv.run (h : HeadersInv s done ctxs)
    (hrun : run (Quantize.addKept s) ctxs kept = some ctxs') :
    HeadersInv s (done ++ kept) ctxs' := by
  induction kept generalizing done ctxs with
  | nil =>
    cases hrun
    rwa [List.append_nil]
  | cons k kept ih =>
    obtain ⟨ctxs₁, hadd, hrun⟩ := Option.bind_eq_some_iff.1 hrun
    rw [List.append_cons]
    exact ih (h.addKept hadd) hrun

theorem HeadersInv.setSplitInfo (h : HeadersInv s kept ctxs)
    (hset : setSplitInfo nSplit nTensors ctxs i = some ctxs') : HeadersInv s kept ctxs' := by
  obtain ⟨ctx, hctx, hset⟩ := Option.bind_eq_some_iff.1 hset
  obtain ⟨ctx₁, h₁, hset⟩ := Option.bind_eq_some_iff.1 hset
  obtain ⟨ctx₂, h₂, hset⟩ := Option.bind_eq_some_iff.1 hset
  obtain ⟨ctx₃, h₃, hset⟩ := Option.bind_eq_some_iff.1 hset
  cases hset
  constructor
  · intro j
    rw [Function.update_apply]
    split
    case isTrue hj =>
      have hheader := h.header i
      rw [hctx] at hheader
      rw [hj]
      exact ((hheader.setVal h₁).setVal h₂).setVal h₃
    case isFalse => exact h.header j
  · intro j hj
    rw [Function.update_apply]
    split
    case isTrue heq =>
      have hothers := h.others i (heq ▸ hj)
      rw [hctx] at hothers
      exact ((hothers.setVal (by decide) h₁).setVal (by decide) h₂).setVal (by decide) h₃
    case isFalse => exact h.others j hj

theorem HeadersInv.initialContexts (hctx : HeaderOf [] ctx)
    (h : initialContexts s ctx kept = some ctxs) : HeadersInv s kept ctxs := by
  obtain ⟨ctxs₁, hadd, hset⟩ := Option.bind_eq_some_iff.1 h
  have hstart : HeadersInv s [] (Function.update (fun _ => none) 0 (some ctx)) := by
    constructor
    · intro i
      rw [Function.update_apply]
      split
      · exact hctx
      · exact headerOf_empty
    · intro i hi
      rw [Function.update_of_ne hi]
      exact List.forall_mem_nil _
  have hadded : HeadersInv s ([] ++ kept) ctxs₁ := hstart.run hadd
  rw [setSplitInfos] at hset
  split at hset
  case isTrue => exact run_preserves HeadersInv.setSplitInfo hadded hset
  case isFalse =>
    cases hset
    exact hadded

theorem headerOf_copyKvs (h : copyKvs s kvs = some ctx) : HeaderOf [] ctx := by
  obtain ⟨ctx₁, h₁, h⟩ := Option.bind_eq_some_iff.1 h
  obtain ⟨ctx₂, h₂, h⟩ := Option.bind_eq_some_iff.1 h
  obtain ⟨ctx₃, h₃, h⟩ := Option.bind_eq_some_iff.1 h
  have hremove (key : Bytes) {ctx : WriterContext} (h : HeaderOf [] ctx) :
      HeaderOf [] (ctx.removeKey key) := h.of_infos (h.inv.removeKey key) rfl
  have hcopied : HeaderOf [] ctx₁ := run_preserves HeaderOf.setKvPair headerOf_empty h₁
  exact run_preserves HeaderOf.setOverride
    (hremove _ (hremove _ (hremove _ ((hcopied.setVal h₂).setVal h₃)))) h

theorem headerOf_setBlockCount (h : HeaderOf [] ctx) (hset : setBlockCount s ctx n = some ctx') :
    HeaderOf [] ctx' := by
  rw [setBlockCount] at hset
  split at hset
  · cases hset
    exact h
  · exact h.setVal hset

theorem writtenBefore_iff (a b : Kept) :
    (if a.weight.idx = b.weight.idx then decide (a.weight.offs ≤ b.weight.offs)
      else decide (a.weight.idx < b.weight.idx)) = true ↔
      a.weight.idx < b.weight.idx ∨ a.weight.idx = b.weight.idx ∧ a.weight.offs ≤ b.weight.offs := by
  split
  case isTrue heq =>
    rw [decide_eq_true_eq]
    omega
  case isFalse hne =>
    rw [decide_eq_true_eq]
    omega

/-- The tensors are written split by split. -/
theorem pairwise_sortedKept (s : Settings State Entry) (kept : List Kept) :
    (sortedKept s kept).Pairwise fun k k' => splitOf s k ≤ splitOf s k' := by
  cases hkeep : s.keepSplit with
  | false =>
    have hzero (k : Kept) : splitOf s k = 0 := by
      rw [splitOf, hkeep]
      rfl
    simp only [hzero, Nat.le_refl]
    exact List.pairwise_of_forall fun _ _ => trivial
  | true =>
    have hidx (k : Kept) : splitOf s k = k.weight.idx := by
      rw [splitOf, if_pos hkeep]
    rw [sortedKept, if_pos hkeep]
    simp only [hidx]
    refine (List.pairwise_mergeSort ?_ ?_ kept).imp ?_
    · intro a b c hab hbc
      rw [writtenBefore_iff] at hab hbc ⊢
      omega
    · intro a b
      rw [Bool.or_eq_true, writtenBefore_iff, writtenBefore_iff]
      omega
    · intro a b hab
      rw [writtenBefore_iff] at hab
      omega

end Headers

/-- What is fixed before a file is written: the headers, and what is written for each tensor. -/
structure Plan where
  heads : Contexts
  tensors : List Encoded

/-- `llama_model_quantize_impl` up to the files. -/
def plan : Option Plan := do
  let ctx ← copyKvs s ml.kvs
  let r ← remapWeights s.pruneLayers ⟨[], 0⟩ ml.weights
  let ctx ← setBlockCount s ctx r.2.nextId
  let kept := sortedKept s r.1
  let heads ← initialContexts s ctx kept
  let tensors ← encodeTensors s ml r.2.mapped s.start kept
  return ⟨heads, tensors⟩

/-- The tensors of the first file with their new types. -/
def Plan.firstInfos (p : Plan) : List TensorInfo := (encodedIn s p.tensors 0).map Encoded.info

/-- The alignment a reader takes from the pairs of the first file makes no difference. -/
def Plan.FirstRealigned (p : Plan) : Prop :=
  ∃ head a, p.heads 0 = some head ∧ alignment? head.kvs = some a ∧
    Realigned a (metaBytes head.kvs (p.firstInfos s)) ((p.firstInfos s).map TensorInfo.ggmlNbytes)

section Claims
variable {s : Settings State Entry} {ml : ModelLoader}

theorem map_kept_encodeTensors (h : encodeTensors s ml mapped st kept = some tensors) :
    tensors.map Encoded.kept = kept := by
  induction kept generalizing st tensors with
  | nil =>
    cases h
    rfl
  | cons k kept ih =>
    obtain ⟨new, _, h⟩ := Option.bind_eq_some_iff.1 h
    obtain ⟨rest, hrest, rfl⟩ := Option.map_eq_some_iff.1 h
    exact congrArg (k :: ·) (ih hrest)

/-- The files of a run are those of its plan. -/
theorem exists_plan (h : llamaModelQuantizeImpl s ml = some files) :
    ∃ p, plan s ml = some p ∧ HeadersInv s (p.tensors.map Encoded.kept) p.heads ∧
      (∀ f ∈ files, ∃ head, p.heads f.index = some head ∧
        f.Written head.kvs (encodedIn s p.tensors f.index)) ∧ ∃ f ∈ files, f.index = 0 := by
  obtain ⟨ctx, hctx, h⟩ := Option.bind_eq_some_iff.1 h
  obtain ⟨r, hr, h⟩ := Option.bind_eq_some_iff.1 h
  obtain ⟨ctx', hctx', h⟩ := Option.bind_eq_some_iff.1 h
  dsimp only at h
  split at h
  case isFalse => cases h
  case isTrue =>
    obtain ⟨heads, hheads, h⟩ := Option.bind_eq_some_iff.1 h
    have hinv := HeadersInv.initialContexts
      (headerOf_setBlockCount (headerOf_copyKvs hctx) hctx') hheads
    have hheader (i : Nat) (head : WriterContext) (hhead : heads i = some head) :
        HeaderOf ((keptIn s (sortedKept s r.1) i).map Kept.info) head := by
      have hall := hinv.header i
      rwa [hhead] at hall
    obtain ⟨tensors, htensors, hfiles, hfirst⟩ :=
      streamTensors_spec hheader (pairwise_sortedKept s r.1) h
    refine ⟨⟨heads, tensors⟩, ?_, ?_, hfiles, hfirst⟩
    · refine Option.bind_eq_some_iff.2 ⟨ctx, hctx, Option.bind_eq_some_iff.2 ⟨r, hr,
        Option.bind_eq_some_iff.2 ⟨ctx', hctx', Option.bind_eq_some_iff.2 ⟨heads, hheads, ?_⟩⟩⟩⟩
      exact Option.bind_eq_some_iff.2 ⟨tensors, htensors, rfl⟩
    · rwa [map_kept_encodeTensors htensors]

/-- The files of a plan are well laid just where the first one is. -/
theorem wellLaid_iff_of_written {p : Plan} {files : List OutputFile}
    (hinv : HeadersInv s kept p.heads)
    (hwritten : ∀ f ∈ files, ∃ head, p.heads f.index = some head ∧
      f.Written head.kvs (encodedIn s p.tensors f.index)) (hfirst : ∃ f ∈ files, f.index = 0) :
    (∀ f ∈ files, f.WellLaid (encodedIn s p.tensors f.index)) ↔ p.FirstRealigned s := by
  constructor
  · intro hall
    obtain ⟨first, hmem, hindex⟩ := hfirst
    obtain ⟨head, hhead, hfile⟩ := hwritten first hmem
    obtain ⟨a, ha, _⟩ := exists_alignment hfile.header.inv
    rw [hfile.kvs] at ha
    have hre := (hfile.wellLaid_iff ha).1 (hall first hmem)
    rw [hindex] at hhead hre
    exact ⟨head, a, hhead, ha, hre⟩
  · rintro ⟨head₀, a, hhead₀, ha, hre⟩ f hf
    obtain ⟨head, hhead, hfile⟩ := hwritten f hf
    by_cases hzero : f.index = 0
    · rw [hzero] at hhead hfile ⊢
      cases hhead₀.symm.trans hhead
      exact (hfile.wellLaid_iff ha).2 hre
    · -- a later file has no pairs but those of the splits
      have hheader := hinv.header f.index
      have hothers := hinv.others f.index hzero
      rw [hhead] at hheader hothers
      exact hfile.wellLaid_of_default (hothers.alignment_eq hheader.inv)

/-- All files of a run are well laid just where the alignment that is read of the first one makes no
difference. -/
theorem wellLaid_iff_realigned (h : llamaModelQuantizeImpl s ml = some files) :
    ∃ p, plan s ml = some p ∧
      ((∀ f ∈ files, f.WellLaid (encodedIn s p.tensors f.index)) ↔ p.FirstRealigned s) := by
  obtain ⟨p, hp, hinv, hwritten, hfirst⟩ := exists_plan h
  exact ⟨p, hp, wellLaid_iff_of_written hinv hwritten hfirst⟩

end Claims

/-- A tensor of 32 bytes. -/
def eightNumbers : LoaderWeight where
  idx := 0
  offs := 0
  info := ⟨bytes "t", .f32, 8, 1, 1, 1, Nat.one_pos, Nat.one_pos, Nat.one_pos⟩
  idx_lt := by decide
  admitted := ⟨by decide, by decide, ⟨8, rfl⟩⟩
  ne_lt := by decide
  name_lt := by decide
  name_nulFree := by simp [NulFree, bytes]

/-- A model with one tensor, whose pairs say an alignment. -/
def alignedModel (alignment : UInt32) : ModelLoader where
  kvs := [(generalAlignment, .scalar .uint32 alignment)]
  files := [List.replicate 32 1]
  weights := [eightNumbers]
  sorted := List.pairwise_singleton _ _
  inFile := List.forall_mem_singleton.2 ⟨_, rfl, by decide⟩

/-- Every tensor keeps its type. -/
def copySettings : Settings Unit Unit where
  fileType := 0
  kvOverrides := []
  pruneLayers := []
  keepSplit := false
  arch := []
  imatrix := none
  attentionExpected := fun _ _ => true
  validRowData := fun _ _ => true
  start := ()
  getType := fun st info => some (⟨info.type, false⟩, st)
  convert := fun _ _ _ _ => none

/-- The alignment that is read of the first file and the sizes of its tensors. -/
def firstSizes (alignment : UInt32) : Option (Option Nat × Nat × List Nat) :=
  (plan copySettings (alignedModel alignment)).bind fun p =>
    (p.heads 0).map fun head => (alignment? head.kvs,
      metaBytes head.kvs (p.firstInfos copySettings),
      (p.firstInfos copySettings).map TensorInfo.ggmlNbytes)

theorem firstRealigned_iff {p : Plan} (hp : plan copySettings (alignedModel alignment) = some p)
    (hsizes : firstSizes alignment = some (some a, m, sizes)) :
    p.FirstRealigned copySettings ↔ Realigned a m sizes := by
  rw [firstSizes, hp, Option.bind_some] at hsizes
  obtain ⟨head, hhead, heq⟩ := Option.map_eq_some_iff.1 hsizes
  rw [Prod.mk.injEq, Prod.mk.injEq] at heq
  obtain ⟨ha, rfl, rfl⟩ := heq
  constructor
  · rintro ⟨head', a', hhead', ha', hre⟩
    cases hhead.symm.trans hhead'
    cases ha.symm.trans ha'
    exact hre
  · intro hre
    exact ⟨head, a, hhead, ha, hre⟩

theorem wellLaid_aligned : ∃ files p,
    llamaModelQuantizeImpl copySettings (alignedModel 32) = some files ∧
      plan copySettings (alignedModel 32) = some p ∧
      ∀ f ∈ files, f.WellLaid (encodedIn copySettings p.tensors f.index) := by
  have hrun : (llamaModelQuantizeImpl copySettings (alignedModel 32)).isSome = true := by
    decide +kernel
  have hsizes : firstSizes 32 = some (some 32, 167, [32]) := by decide
  obtain ⟨files, h⟩ := Option.isSome_iff_exists.1 hrun
  obtain ⟨p, hp, hiff⟩ := wellLaid_iff_realigned h
  have hre : Realigned 32 167 [32] := ⟨by decide, fun _ => rfl, padsAgree_self 32 [32]⟩
  exact ⟨files, p, h, hp, hiff.2 ((firstRealigned_iff hp hsizes).2 hre)⟩

/-- Padded to 64 the data of the tensor end behind the file. -/
theorem aligned_not_wellLaid : ∃ files p,
    llamaModelQuantizeImpl copySettings (alignedModel 64) = some files ∧
      plan copySettings (alignedModel 64) = some p ∧
      ¬ ∀ f ∈ files, f.WellLaid (encodedIn copySettings p.tensors f.index) := by
  have hrun : (llamaModelQuantizeImpl copySettings (alignedModel 64)).isSome = true := by
    decide +kernel
  have hsizes : firstSizes 64 = some (some 64, 167, [32]) := by decide
  obtain ⟨files, h⟩ := Option.isSome_iff_exists.1 hrun
  obtain ⟨p, hp, hinv, hwritten, hfirst⟩ := exists_plan h
  refine ⟨files, p, h, hp, fun hall => ?_⟩
  have hplan := (wellLaid_iff_of_written hinv hwritten hfirst).1 hall
  have hle := ((firstRealigned_iff hp hsizes).1 hplan).tensors
  exact absurd (show padTo 64 32 ≤ padTo 32 32 from hle) (by decide)

end ActQuant.Quantize
