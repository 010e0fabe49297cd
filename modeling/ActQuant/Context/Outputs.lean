import ActQuant.Batch.SplitRun
import ActQuant.Lib.Run
import ActQuant.Lib.Swaps

namespace ActQuant.Context
open ActQuant.Lib ActQuant.Batch

inductive PoolingType
  | none | mean | cls | last | rank
deriving DecidableEq

/-- The parameters of a context that its outputs depend on. -/
structure Params where
  nVocab : Nat
  nSeqMax : Nat
  kvUnified : Bool
  t5 : Bool
  poolingType : PoolingType
  nBatch : Nat
  nUbatch : Nat
  nUbatch_pos : 1 ≤ nUbatch
  nUbatch_le : nUbatch ≤ nBatch

/-- The bound on the sequences of a batch. -/
def Params.seqMax (p : Params) : Nat := if p.kvUnified then LLAMA_MAX_SEQ else p.nSeqMax

/-- The output buffers and mappings of `llama_context`. A buffer without rows is a null pointer, and
a row without a value is one that the last call left as it was. -/
structure State (R E : Type) where
  logits : Option (List (Option R))
  embd : Option (List (Option E))
  outputIds : List Int
  nOutputs : Nat
  swaps : List (Nat × Nat)

/-- The rows that the graph computes for the tokens of a batch, where it has such a tensor. -/
structure Graph (R E : Type) where
  logits : Option (Nat → R)
  embd : Option (Nat → E)

variable {R E α : Type}

def fresh : State R E := ⟨none, none, [], 0, []⟩

def outputReserve (p : Params) (embeddings : Bool) (n : Nat) (st : State R E) : State R E where
  logits := some (List.replicate (max n p.nSeqMax) none)
  embd := if embeddings || p.t5 then some (List.replicate (max n p.nSeqMax) none) else none
  outputIds := List.replicate p.nBatch (-1)
  nOutputs := 0
  swaps := st.swaps

/-- The embeddings that the switch over the pooling type copies to the rows of the tokens. Those that
are pooled go to `embd_seq`, by their sequences. -/
def Params.tokenEmbd (p : Params) (embd : Option (Nat → E)) : Option (Nat → E) :=
  match p.poolingType with
  | .none => embd
  | .mean | .cls | .last | .rank => none

/-- The copy of the rows of some tokens to a place of the buffer, which has to hold them. -/
def extract (buf : Option (List (Option α))) (row : Option (Nat → α)) (pos : Nat)
    (outs : List Nat) : Option (Option (List (Option α))) :=
  match row with
  | none => some buf
  | some f =>
    if outs = [] then some buf
    else buf.bind fun rows =>
      if pos + outs.length ≤ rows.length then
        some (some (rows.take pos ++ outs.map (some ∘ f) ++ rows.drop (pos + outs.length)))
      else none

/-- The outputs of one ubatch, behind `n_outputs_prev` others. -/
def extractUbatch (b : Allocr) (logits : Option (Nat → R)) (embd : Option (Nat → E)) (nAll : Nat)
    (s : State R E × Nat) (call : Allocr.Call) : Option (State R E × Nat) :=
  let outs := call.idxs.filter fun i => (b.token i).output
  if s.2 + outs.length ≤ nAll then
    (extract s.1.logits logits s.2 outs).bind fun l =>
      (extract s.1.embd embd s.2 outs).map fun e =>
        ({ s.1 with logits := l, embd := e }, s.2 + outs.length)
  else none

/-- The loop that writes the rows of the outputs into `output_ids`. -/
def mapIds (ids : List Int) (outIds : List Nat) : List Int :=
  outIds.zipIdx.foldl (fun ids p => ids.set p.1 p.2) ids

/-- The output mappings at the end of `decode`. -/
def mapOutputs (outIds : List Nat) (st : State R E) : Option (State R E) :=
  if st.nOutputs = 0 then some st
  else if outIds.length = st.nOutputs then
    if outIds = List.range outIds.length then
      some { st with outputIds := mapIds st.outputIds outIds }
    else some { st with
      outputIds := mapIds (st.outputIds.map fun _ => -1) (selectionSort outIds).1
      swaps := st.swaps ++ (selectionSort outIds).2 }
  else none

def nOutputs (b : Allocr) : Nat := (b.tokens.filter Token.output).length

/-- `decode` with the split that the memory chooses; no result where it does not succeed. -/
def decode (p : Params) (batch : LlamaBatch) (mem : Memory) (kind : Split) (embeddings : Bool)
    (graph : Graph R E) (st : State R E) : Option (State R E) :=
  (init batch p.nVocab p.seqMax (some mem) embeddings).bind fun b =>
    if (embeddings → nOutputs b = b.nTokens) ∧ b.nTokens ≤ p.nBatch then
      (b.splitAll kind p.nUbatch (b.nTokens + 1) splitReset).bind fun r =>
        if r.2.nUsed = b.nTokens then
          (r.1.foldlM (extractUbatch b graph.logits
              (p.tokenEmbd (if embeddings then graph.embd else none)) (nOutputs b))
            (outputReserve p embeddings (nOutputs b) { st with swaps := [] }, 0)).bind
            fun s => mapOutputs r.2.outIds { s.1 with nOutputs := nOutputs b }
        else none
    else none

/-- `encode`, which leaves the recorded swaps as they are. -/
def encode (p : Params) (batch : LlamaBatch) (embeddings : Bool) (graph : Graph R E)
    (st : State R E) : Option (State R E) :=
  (init batch p.nVocab p.seqMax none true).bind fun b =>
    if b.nTokens ≤ p.nUbatch then
      let idxs := b.splitSimple b.nTokens ∅
      let st := outputReserve p embeddings b.nTokens st
      (extract st.logits graph.logits 0 idxs).bind fun l =>
        (extract st.embd (p.tokenEmbd (if st.embd.isSome then graph.embd else none)) 0 idxs).map
          fun e => { st with
            logits := l
            embd := e
            outputIds := mapIds st.outputIds (List.range b.nTokens)
            nOutputs := b.nTokens }
    else none

/-- The swaps on one buffer; no result where they reach behind its rows. -/
def swapRows (swaps : List (Nat × Nat)) (buf : Option (List (Option α))) :
    Option (Option (List (Option α))) :=
  match buf with
  | none => some none
  | some rows =>
    if ∀ p ∈ swaps, p.1 < rows.length ∧ p.2 < rows.length then some (some (replay swaps rows))
    else none

namespace State

/-- `output_reorder`. -/
def reorder (st : State R E) : Option (State R E) :=
  (swapRows st.swaps st.logits).bind fun l =>
    (swapRows st.swaps st.embd).map fun e => { st with logits := l, embd := e, swaps := [] }

/-- The row of an output; none for a null pointer. -/
def rowIth (st : State R E) (buf : Option (List (Option α))) (i : Int) : Option (Option α) :=
  buf.bind fun rows =>
    let j : Int := if i < 0 then st.nOutputs + i else st.outputIds.getD i.toNat (-1)
    if 0 ≤ j ∧ j < st.nOutputs then rows[j.toNat]? else none

/-! The accesses, each with the state it leaves. -/

def getLogits (st : State R E) : Option (Option (List (Option R)) × State R E) :=
  st.reorder.map fun st => (st.logits, st)

def getLogitsIth (st : State R E) (i : Int) : Option (Option (Option R) × State R E) :=
  st.reorder.map fun st => (st.rowIth st.logits i, st)

def getEmbeddings (st : State R E) : Option (Option (List (Option E)) × State R E) :=
  st.reorder.map fun st => (st.embd, st)

def getEmbeddingsIth (st : State R E) (i : Int) : Option (Option (Option E) × State R E) :=
  st.reorder.map fun st => (st.rowIth st.embd i, st)

end State

/-- The calls of a context. A context without memory decodes by `encode`. -/
inductive Op (R E : Type) where
  | decode (batch : LlamaBatch) (mem : Memory) (kind : Split) (embeddings : Bool)
      (graph : Graph R E)
  | encode (batch : LlamaBatch) (embeddings : Bool) (graph : Graph R E)
  | getLogits
  | getLogitsIth (i : Int)
  | getEmbeddings
  | getEmbeddingsIth (i : Int)

def step (p : Params) (st : State R E) : Op R E → Option (State R E)
  | .decode batch mem kind embeddings graph => decode p batch mem kind embeddings graph st
  | .encode batch embeddings graph => encode p batch embeddings graph st
  | .getLogits => st.getLogits.map Prod.snd
  | .getLogitsIth i => (st.getLogitsIth i).map Prod.snd
  | .getEmbeddings => st.getEmbeddings.map Prod.snd
  | .getEmbeddingsIth i => (st.getEmbeddingsIth i).map Prod.snd

variable {R E α : Type}

/-! The outputs of the last call, whatever was called before. -/

/-- The output tokens, in batch order. -/
def outputs (b : Allocr) : List Nat :=
  (List.range b.nTokens).filter fun i => (b.token i).output

theorem outputs_sorted (b : Allocr) : (outputs b).Pairwise (· < ·) :=
  List.pairwise_lt_range.filter _

/-- A buffer with the rows of these tokens in front, where they are computed. -/
def Holds (row : Option (Nat → α)) (outIds : List Nat) (buf : Option (List (Option α))) : Prop :=
  (∀ rows ∈ buf, outIds.length ≤ rows.length) ∧
    ∀ f ∈ row, ∃ rest, buf = some (outIds.map (some ∘ f) ++ rest)

/-- The buffers hold the rows in the order of `out_ids`, and the pending swaps lead from there to
the batch order, which is that of `output_ids`. -/
structure Ready (outs outIds : List Nat) (g : Graph R E) (st : State R E) : Prop where
  replays : replay st.swaps outIds = outs
  within : Within outIds.length st.swaps
  nOutputs : st.nOutputs = outIds.length
  logits : Holds g.logits outIds st.logits
  embd : Holds g.embd outIds st.embd
  ids : ∀ (k i : Nat), outs[k]? = some i → st.outputIds.getD i (-1) = k

/-! The accesses. -/

theorem Holds.swapRows {row : Option (Nat → α)} (h : Holds row outIds buf)
    (hs : Within outIds.length swaps) :
    ∃ buf', swapRows swaps buf = some buf' ∧ Holds row (replay swaps outIds) buf' := by
  obtain ⟨hlen, hrow⟩ := h
  cases buf with
  | none =>
    refine ⟨none, rfl, fun rows hr => (Option.not_mem_none rows hr).elim, fun f hf => ?_⟩
    obtain ⟨rest, hrest⟩ := hrow f hf
    cases hrest
  | some rows =>
    have hle := hlen rows rfl
    refine ⟨some (replay swaps rows), if_pos fun p hp => ?_, fun rows' hr => ?_, fun f hf => ?_⟩
    · exact ⟨(hs p hp).1.trans_le hle, (hs p hp).2.trans_le hle⟩
    · cases hr
      rw [replay_length, replay_length]
      exact hle
    · obtain ⟨rest, hrest⟩ := hrow f hf
      have hs' : Within (outIds.map (some ∘ f)).length swaps := by
        rw [List.length_map]
        exact hs
      refine ⟨rest, ?_⟩
      rw [Option.some.inj hrest, replay_append hs', replay_map]

/-- An access applies the pending swaps, and none are pending then. -/
theorem Ready.reorder {g : Graph R E} (h : Ready outs outIds g st) :
    ∃ st', st.reorder = some st' ∧ st'.swaps = [] ∧ Ready outs outs g st' := by
  obtain ⟨l, hl, hlogits⟩ := h.logits.swapRows h.within
  obtain ⟨e, he, hembd⟩ := h.embd.swapRows h.within
  rw [h.replays] at hlogits hembd
  have hlen : outs.length = outIds.length := by rw [← h.replays, replay_length]
  refine ⟨{ st with logits := l, embd := e, swaps := [] }, ?_, rfl, rfl, ?_, ?_, hlogits, hembd,
    h.ids⟩
  · rw [State.reorder, hl, he]
    rfl
  · exact fun _ hp => (List.not_mem_nil hp).elim
  · exact h.nOutputs.trans hlen.symm

theorem Ready.rowIth {g : Graph R E} {f : Nat → α} {buf : Option (List (Option α))}
    (h : Ready outs outs g st) (hbuf : Holds (some f) outs buf) (hi : i ∈ outs) :
    st.rowIth buf i = some (some (f i)) := by
  obtain ⟨k, hk, he⟩ := List.getElem_of_mem hi
  obtain ⟨rest, hrest⟩ := hbuf.2 f rfl
  have hid := h.ids k i (he ▸ List.getElem?_eq_getElem hk)
  have hrow : (outs.map (some ∘ f) ++ rest)[k]? = some (some (f i)) := by
    rw [List.getElem?_append_left (by rw [List.length_map]; exact hk), List.getElem?_map,
      List.getElem?_eq_getElem hk, he]
    rfl
  rw [State.rowIth, hrest, Option.bind_some, if_neg (Int.not_lt.2 (Int.natCast_nonneg i)),
    Int.toNat_natCast, hid]
  dsimp only
  rw [if_pos ⟨Int.natCast_nonneg k, by rw [h.nOutputs]; exact Int.ofNat_lt.2 hk⟩,
    Int.toNat_natCast, hrow]

/-- What the accesses return: the row of each output token, and the rows in batch order. -/
structure Answers (outs : List Nat) (g : Graph R E) (st : State R E) : Prop where
  logits : ∃ buf st', st.getLogits = some (buf, st') ∧
    ∀ f ∈ g.logits, ∃ rows, buf = some rows ∧ rows.take outs.length = outs.map (some ∘ f)
  logitsIth : ∀ i ∈ outs, ∃ row st', st.getLogitsIth i = some (row, st') ∧
    ∀ f ∈ g.logits, row = some (some (f i))
  embd : ∃ buf st', st.getEmbeddings = some (buf, st') ∧
    ∀ f ∈ g.embd, ∃ rows, buf = some rows ∧ rows.take outs.length = outs.map (some ∘ f)
  embdIth : ∀ i ∈ outs, ∃ row st', st.getEmbeddingsIth i = some (row, st') ∧
    ∀ f ∈ g.embd, row = some (some (f i))

theorem Holds.take {row : Option (Nat → α)} (h : Holds row outs buf) :
    ∀ f ∈ row, ∃ rows, buf = some rows ∧ rows.take outs.length = outs.map (some ∘ f) := by
  intro f hf
  obtain ⟨rest, hrest⟩ := h.2 f hf
  refine ⟨_, hrest, ?_⟩
  rw [List.take_append_of_le_length (by rw [List.length_map]), List.take_of_length_le]
  rw [List.length_map]

theorem Holds.of_mem {row : Option (Nat → α)} (h : Holds row outs buf) (hf : f ∈ row) :
    Holds (some f) outs buf := by
  refine ⟨h.1, fun g hg => ?_⟩
  cases hg
  exact h.2 f hf

theorem Ready.answers {g : Graph R E} (h : Ready outs outIds g st) : Answers outs g st := by
  obtain ⟨st', he, _, hready⟩ := h.reorder
  constructor
  · refine ⟨st'.logits, st', ?_, hready.logits.take⟩
    rw [State.getLogits, he, Option.map_some]
  · refine fun i hi => ⟨st'.rowIth st'.logits i, st', ?_, fun f hf => ?_⟩
    · rw [State.getLogitsIth, he, Option.map_some]
    · exact hready.rowIth (hready.logits.of_mem hf) hi
  · refine ⟨st'.embd, st', ?_, hready.embd.take⟩
    rw [State.getEmbeddings, he, Option.map_some]
  · refine fun i hi => ⟨st'.rowIth st'.embd i, st', ?_, fun f hf => ?_⟩
    · rw [State.getEmbeddingsIth, he, Option.map_some]
    · exact hready.rowIth (hready.embd.of_mem hf) hi

/-! The mappings. -/

theorem foldl_set {l : List Nat} (hnd : l.Nodup) {ids : List Int} (hlt : ∀ i ∈ l, i < ids.length)
    (s i : Nat) :
    (∀ k : Nat, l[k]? = some i →
      ((l.zipIdx s).foldl (fun ids p => ids.set p.1 p.2) ids).getD i (-1) = (s + k : Nat)) ∧
    (i ∉ l → ((l.zipIdx s).foldl (fun ids p => ids.set p.1 p.2) ids).getD i (-1) =
      ids.getD i (-1)) := by
  induction l generalizing s ids with
  | nil =>
    refine ⟨fun k hk => ?_, fun _ => rfl⟩
    cases hk
  | cons a l ih =>
    obtain ⟨ha, hnd⟩ := List.nodup_cons.1 hnd
    obtain ⟨halt, hlt⟩ := List.forall_mem_cons.1 hlt
    have hlt' : ∀ i ∈ l, i < (ids.set a s).length := by
      rw [List.length_set]
      exact hlt
    obtain ⟨hin, hout⟩ := ih hnd hlt' (s + 1)
    rw [List.zipIdx_cons, List.foldl_cons]
    constructor
    · intro k hk
      cases k with
      | zero =>
        obtain rfl : a = i := Option.some.inj hk
        rw [hout ha, List.getD_eq_getElem?_getD, List.getElem?_set_self halt]
        rfl
      | succ k =>
        rw [hin k hk, Nat.add_right_comm]
        rfl
    · intro hi
      obtain ⟨hne, hi⟩ := not_or.1 (mt List.mem_cons.2 hi)
      rw [hout hi, List.getD_eq_getElem?_getD, List.getD_eq_getElem?_getD,
        List.getElem?_set_ne fun h => hne h.symm]

theorem mapIds_eq (ids : List Int) {k : Nat} {outIds : List Nat} (hnd : outIds.Nodup)
    (hlt : ∀ i ∈ outIds, i < ids.length) (hk : outIds[k]? = some i) :
    (mapIds ids outIds).getD i (-1) = k := by
  have hset := (foldl_set hnd hlt 0 i).1 k hk
  rw [Nat.zero_add] at hset
  exact hset

/-- The output ids with the swaps that sort them. -/
theorem sorted_of_perm {outs outIds : List Nat} (hp : outIds.Perm outs)
    (hs : outs.Pairwise (· < ·)) :
    (selectionSort outIds).1 = outs ∧ replay (selectionSort outIds).2 outIds = outs := by
  obtain ⟨hreplay, _, hsorted⟩ := selectionSort_spec outIds
  have hperm : (selectionSort outIds).1.Perm outs :=
    (hreplay ▸ replay_perm (selectionSort outIds).2 outIds).trans hp
  have he := hperm.eq_of_pairwise (fun _ _ _ _ => le_antisymm) hsorted (hs.imp Nat.le_of_lt)
  exact ⟨he, hreplay.trans he⟩

theorem mapOutputs_ready {g : Graph R E} (hp : outIds.Perm outs) (hs : outs.Pairwise (· < ·))
    (hlt : ∀ i ∈ outs, i < st.outputIds.length) (hswaps : st.swaps = [])
    (hzero : st.nOutputs = 0 → outIds = [])
    (hl : Holds g.logits outIds st.logits) (he : Holds g.embd outIds st.embd)
    (h : mapOutputs outIds st = some st') : Ready outs outIds g st' := by
  rw [mapOutputs] at h
  split at h
  · case isTrue hno =>
    cases h
    have hnil := hzero hno
    have houts : outs = [] := List.perm_nil.1 (hnil ▸ hp.symm)
    refine ⟨?_, ?_, ?_, hl, he, fun k i hk => ?_⟩
    · rw [hswaps, houts]
      exact hnil
    · rw [hswaps]
      exact fun _ hq => (List.not_mem_nil hq).elim
    · rw [hno, hnil]
      rfl
    · rw [houts] at hk
      cases hk
  · rw [Option.ite_none_right_eq_some] at h
    obtain ⟨hlen, h⟩ := h
    split at h
    · case isTrue hrange =>
      cases h
      have hsorted : outIds.Pairwise (· < ·) := by
        rw [hrange]
        exact List.pairwise_lt_range
      have hsame : outIds = outs := hp.eq_of_pairwise (fun _ _ _ _ => le_antisymm)
        (hsorted.imp Nat.le_of_lt) (hs.imp Nat.le_of_lt)
      refine ⟨?_, ?_, hlen.symm, hl, he, fun k i hk => ?_⟩
      · dsimp only
        rw [hswaps]
        exact hsame
      · dsimp only
        rw [hswaps]
        exact fun _ hq => (List.not_mem_nil hq).elim
      · rw [hsame]
        exact mapIds_eq _ (hs.imp Nat.ne_of_lt) hlt hk
    · cases h
      obtain ⟨hsel, hreplay⟩ := sorted_of_perm hp hs
      have hids : ∀ i ∈ outs, i < (st.outputIds.map fun _ => (-1 : Int)).length := by
        rw [List.length_map]
        exact hlt
      refine ⟨?_, ?_, hlen.symm, hl, he, fun k i hk => ?_⟩
      · dsimp only
        rw [hswaps, List.nil_append]
        exact hreplay
      · dsimp only
        rw [hswaps, List.nil_append]
        exact (selectionSort_spec outIds).2.1
      · dsimp only
        rw [hsel]
        exact mapIds_eq _ (hs.imp Nat.ne_of_lt) hids hk

/-! The rows of the ubatches. -/

theorem Holds.extract {row : Option (Nat → α)} (h : Holds row done buf)
    (hx : extract buf row done.length outs = some buf') (hroom : ∀ rows ∈ buf, total ≤ rows.length)
    (htotal : done.length + outs.length ≤ total) :
    Holds row (done ++ outs) buf' ∧ ∀ rows ∈ buf', total ≤ rows.length := by
  cases row with
  | none =>
    cases hx
    refine ⟨⟨fun rows hr => ?_, fun f hf => (Option.not_mem_none f hf).elim⟩, hroom⟩
    rw [List.length_append]
    exact htotal.trans (hroom rows hr)
  | some f =>
    rw [Context.extract] at hx
    split at hx
    · case isTrue hnil =>
      cases hx
      rw [hnil, List.append_nil]
      exact ⟨h, hroom⟩
    · obtain ⟨rows, hrows, hx⟩ := Option.bind_eq_some_iff.1 hx
      rw [Option.ite_none_right_eq_some] at hx
      obtain ⟨hfit, hx⟩ := hx
      cases hx
      obtain ⟨rest, hrest⟩ := h.2 f rfl
      obtain rfl : rows = done.map (some ∘ f) ++ rest :=
        Option.some.inj (hrows.symm.trans hrest)
      have htake : (done.map (some ∘ f) ++ rest).take done.length = done.map (some ∘ f) := by
        rw [List.take_append_of_le_length (by rw [List.length_map]), List.take_of_length_le]
        rw [List.length_map]
      have hlong : ∀ rows ∈ some ((done.map (some ∘ f) ++ rest).take done.length ++
          outs.map (some ∘ f) ++
          (done.map (some ∘ f) ++ rest).drop (done.length + outs.length)),
          rows.length = (done.map (some ∘ f) ++ rest).length := by
        intro rows hr
        cases hr
        rw [htake, List.length_append, List.length_append, List.length_drop, List.length_map,
          List.length_map]
        omega
      refine ⟨⟨fun rows hr => ?_, fun f' hf => ?_⟩, fun rows hr => ?_⟩
      · rw [hlong rows hr, List.length_append]
        exact hfit
      · cases hf
        rw [htake, List.map_append]
        exact ⟨_, rfl⟩
      · rw [hlong rows hr]
        exact hroom _ hrows

/-- The buffers hold the rows of the tokens so far, and have room for all. -/
structure Filled (g : Graph R E) (nAll : Nat) (done : List Nat) (st : State R E) : Prop where
  logits : Holds g.logits done st.logits
  embd : Holds g.embd done st.embd
  logitsRoom : ∀ rows ∈ st.logits, nAll ≤ rows.length
  embdRoom : ∀ rows ∈ st.embd, nAll ≤ rows.length
  few : done.length ≤ nAll

theorem Filled.step {g : Graph R E} (h : Filled g nAll done s.1) (hs : s.2 = done.length)
    (hx : extractUbatch b g.logits g.embd nAll s call = some s') :
    Filled g nAll (done ++ call.idxs.filter fun i => (b.token i).output) s'.1 ∧
      s'.2 = (done ++ call.idxs.filter fun i => (b.token i).output).length ∧
      s'.1.outputIds = s.1.outputIds ∧ s'.1.swaps = s.1.swaps := by
  rw [extractUbatch, hs, Option.ite_none_right_eq_some] at hx
  obtain ⟨hfew, hx⟩ := hx
  obtain ⟨l, hl, hx⟩ := Option.bind_eq_some_iff.1 hx
  obtain ⟨e, he, hx⟩ := Option.map_eq_some_iff.1 hx
  obtain ⟨hlogits, hlroom⟩ := h.logits.extract hl h.logitsRoom hfew
  obtain ⟨hembd, heroom⟩ := h.embd.extract he h.embdRoom hfew
  cases hx
  rw [← List.length_append] at hfew
  exact ⟨⟨hlogits, hembd, hlroom, heroom, hfew⟩, List.length_append.symm, rfl, rfl⟩

theorem Filled.all {g : Graph R E} {calls : List Allocr.Call} (h : Filled g nAll done s.1)
    (hs : s.2 = done.length)
    (hx : calls.foldlM (extractUbatch b g.logits g.embd nAll) s = some s') :
    Filled g nAll (done ++ (calls.map Allocr.Call.idxs).flatten.filter fun i =>
        (b.token i).output) s'.1 ∧
      s'.1.outputIds = s.1.outputIds ∧ s'.1.swaps = s.1.swaps := by
  induction calls generalizing s done with
  | nil =>
    cases hx
    rw [List.map_nil, List.flatten_nil, List.filter_nil, List.append_nil]
    exact ⟨h, rfl, rfl⟩
  | cons call calls ih =>
    obtain ⟨u, hu, hx⟩ := foldlM_cons_eq_some.1 hx
    obtain ⟨hfill, hlen, hids, hswaps⟩ := h.step hs hu
    obtain ⟨hall, hids', hswaps'⟩ := ih hfill hlen hx
    rw [List.append_assoc, ← List.filter_append, ← List.flatten_cons, ← List.map_cons] at hall
    exact ⟨hall, hids'.trans hids, hswaps'.trans hswaps⟩

theorem holds_nil {row : Option (Nat → α)} (h : row = none ∨ ∃ rows, buf = some rows) :
    Holds row [] buf := by
  refine ⟨fun _ _ => Nat.zero_le _, fun f hf => ?_⟩
  rcases h with rfl | ⟨rows, rfl⟩
  · cases hf
  · exact ⟨rows, rfl⟩

theorem outputReserve_filled (p : Params) (embeddings : Bool) (n : Nat) (st : State R E)
    {g : Graph R E} (hg : g.embd = none ∨ (embeddings || p.t5) = true) :
    Filled g n [] (outputReserve p embeddings n st) := by
  have hroom {α : Type} : ∀ rows ∈ some (List.replicate (max n p.nSeqMax) (none : Option α)),
      n ≤ rows.length := by
    intro rows hr
    cases hr
    rw [List.length_replicate]
    exact Nat.le_max_left _ _
  refine ⟨holds_nil (.inr ⟨_, rfl⟩), holds_nil ?_, hroom, fun rows hr => ?_, Nat.zero_le _⟩
  · rcases hg with hg | hg
    · exact .inl hg
    · rw [outputReserve, if_pos hg]
      exact .inr ⟨_, rfl⟩
  · rw [outputReserve] at hr
    dsimp only at hr
    split at hr
    · exact hroom rows hr
    · cases hr

/-! The calls. -/

/-- A decode that succeeds splits its batch to the end. -/
theorem split_complete {b : Allocr} (hb : b.Seated) (hpos : 0 < b.nTokens) (hn : 1 ≤ n)
    (h : b.splitAll kind n (b.nTokens + 1) splitReset = some (calls, sp))
    (hused : sp.nUsed = b.nTokens) :
    sp.outIds.Perm (outputs b) ∧
      sp.outIds = (calls.map Allocr.Call.idxs).flatten.filter fun i => (b.token i).output := by
  have hr : kind = .equal true → hasCpl b.tokens = false := by
    rintro rfl
    by_contra hcpl
    have hnil : b.idxs n splitReset.used (.equal true) = [] := by
      rw [Allocr.idxs, Bool.true_and, if_pos (Bool.eq_true_of_not_eq_false hcpl)]
    rw [Allocr.splitAll_stop hnil] at h
    cases h
    exact Nat.lt_irrefl _ (hused ▸ hpos)
  obtain ⟨calls', st', hall, hsplits, _⟩ := Allocr.splitAll_spec hb hn hr
  obtain ⟨rfl, rfl⟩ := Prod.mk.inj (Option.some.inj (h.symm.trans hall))
  rw [hsplits.outIds]
  exact ⟨hsplits.once.filter _, rfl⟩

theorem init_nTokens {batch : LlamaBatch} {nSeqMax : Nat}
    (h : init batch nVocab nSeqMax mem outputAll = some b) : 0 < b.nTokens := by
  obtain ⟨⟨hne, _⟩, xs, hfill, _, rfl⟩ := init_eq_some.1 h
  obtain ⟨_, ps, _, hlen, hzip⟩ := LlamaBatch.fill_spec hfill
  have hxs : xs.length = batch.entries.length := by
    have hzlen := congrArg List.length hzip
    rw [List.length_map, List.length_zip, hlen, Nat.min_self, LlamaBatch.seqIds,
      List.length_map] at hzlen
    exact hzlen
  exact (hxs.symm ▸ List.length_pos_iff.2 hne : 0 < xs.length)

/-- Where all tokens are outputs, they are the output tokens. -/
theorem init_outputs {batch : LlamaBatch} {nSeqMax : Nat}
    (h : init batch nVocab nSeqMax mem true = some b) : outputs b = List.range b.nTokens := by
  obtain ⟨_, xs, hfill, _, rfl⟩ := init_eq_some.1 h
  have hall : ∀ x ∈ xs, x.output = true := by
    rw [LlamaBatch.fill, Option.ite_none_right_eq_some] at hfill
    obtain ⟨ps, _, rfl⟩ := Option.map_eq_some_iff.1 hfill.2
    intro x hx
    obtain ⟨i, hi, rfl⟩ := List.getElem_of_mem hx
    rw [List.getElem_zipWith]
    simp only [LlamaBatch.outputs, if_pos, List.getElem_map]
  refine List.filter_eq_self.2 fun i hi => ?_
  have hi : i < xs.length := List.mem_range.1 hi
  rw [Allocr.token, List.getD_eq_getElem _ _ hi]
  exact hall _ (List.getElem_mem hi)

/-- What a call reads out of the graph: the embeddings only where there is a buffer for them. -/
def Graph.read (embeddings : Bool) (g : Graph R E) : Graph R E :=
  ⟨g.logits, if embeddings then g.embd else none⟩

/-- There are no embeddings to read, or they are those of the tokens. -/
def ReadsTokens (p : Params) (g : Graph R E) : Prop := g.embd.isSome → p.poolingType = .none

theorem tokenEmbd_of {g : Graph R E} (h : ReadsTokens p g) : p.tokenEmbd g.embd = g.embd := by
  rw [Params.tokenEmbd]
  cases he : g.embd with
  | none => split <;> rfl
  | some f => rw [h (by rw [he]; rfl)]

theorem decode_ready {g : Graph R E}
    (hb : init batch p.nVocab p.seqMax (some mem) embeddings = some b)
    (hpool : ReadsTokens p (g.read embeddings))
    (h : decode p batch mem kind embeddings g st = some st') :
    ∃ outIds, Ready (outputs b) outIds (g.read embeddings) st' := by
  rw [decode, hb, Option.bind_some, Option.ite_none_right_eq_some] at h
  obtain ⟨⟨_, hfit⟩, h⟩ := h
  obtain ⟨⟨calls, sp⟩, hsplit, h⟩ := Option.bind_eq_some_iff.1 h
  rw [Option.ite_none_right_eq_some] at h
  obtain ⟨hused, h⟩ := h
  obtain ⟨s, hs, h⟩ := Option.bind_eq_some_iff.1 h
  have htoken : p.tokenEmbd (if embeddings then g.embd else none) = (g.read embeddings).embd :=
    tokenEmbd_of hpool
  rw [htoken] at hs
  have hg : (g.read embeddings).embd = none ∨ (embeddings || p.t5) = true := by
    cases embeddings with
    | false => exact .inl rfl
    | true => exact .inr rfl
  obtain ⟨hperm, hout⟩ :=
    split_complete (init_seated hb) (init_nTokens hb) p.nUbatch_pos hsplit hused
  obtain ⟨hfilled, hids, hswaps⟩ :=
    (outputReserve_filled p embeddings (nOutputs b) { st with swaps := [] } hg).all (s := (_, 0))
      rfl hs
  rw [List.nil_append, ← hout] at hfilled
  refine ⟨sp.outIds, mapOutputs_ready hperm (outputs_sorted b) (fun i hi => ?_) ?_
    (fun hzero => ?_) ?_ ?_ h⟩
  · dsimp only
    rw [hids]
    have hi : i < b.nTokens := List.mem_range.1 (List.mem_filter.1 hi).1
    exact (hi.trans_le hfit).trans_eq List.length_replicate.symm
  · exact hswaps
  · exact List.length_eq_zero_iff.1 (Nat.le_zero.1 (hfilled.few.trans (Nat.le_of_eq hzero)))
  · exact hfilled.logits
  · exact hfilled.embd

theorem encode_ready {g : Graph R E} (hb : init batch p.nVocab p.seqMax none true = some b)
    (hst : st.swaps = []) (hpool : ReadsTokens p (g.read (embeddings || p.t5)))
    (h : encode p batch embeddings g st = some st') :
    Ready (outputs b) (outputs b) (g.read (embeddings || p.t5)) st' := by
  rw [encode, hb, Option.bind_some, Option.ite_none_right_eq_some] at h
  obtain ⟨hfit, h⟩ := h
  have hpos := init_nTokens hb
  have hidxs : b.splitSimple b.nTokens ∅ = outputs b := by
    have hall := Allocr.splitSimple_range (Nat.zero_le b.nTokens) b.nTokens
    rw [Finset.range_zero] at hall
    rw [hall, init_outputs hb, List.range_eq_range']
    congr 1
    omega
  have hread : (if (outputReserve p embeddings b.nTokens st).embd.isSome then g.embd else none) =
      (g.read (embeddings || p.t5)).embd := by
    rw [outputReserve, Graph.read]
    cases embeddings || p.t5 with
    | false => rfl
    | true => rfl
  have hg : (g.read (embeddings || p.t5)).embd = none ∨ (embeddings || p.t5) = true := by
    cases embeddings || p.t5 with
    | false => exact .inl rfl
    | true => exact .inr rfl
  have hfilled := outputReserve_filled p embeddings b.nTokens st hg
  obtain ⟨l, hl, h⟩ := Option.bind_eq_some_iff.1 h
  obtain ⟨e, he, h⟩ := Option.map_eq_some_iff.1 h
  have hlen : (outputs b).length = b.nTokens := by rw [init_outputs hb, List.length_range]
  have hroom : ([] : List Nat).length + (outputs b).length ≤ b.nTokens := by
    rw [List.length_nil, Nat.zero_add, hlen]
  rw [hidxs] at hl he
  rw [hread, tokenEmbd_of hpool] at he
  obtain ⟨hlogits, _⟩ := hfilled.logits.extract hl hfilled.logitsRoom hroom
  obtain ⟨hembd, _⟩ := hfilled.embd.extract he hfilled.embdRoom hroom
  cases h
  refine ⟨?_, ?_, hlen.symm, hlogits, hembd, fun k i hk => ?_⟩
  · exact congrArg (replay · (outputs b)) hst
  · exact fun q hq => (List.not_mem_nil (hst ▸ hq)).elim
  · rw [init_outputs hb] at hk
    refine mapIds_eq _ List.nodup_range (fun i hi => ?_) hk
    exact ((List.mem_range.1 hi).trans_le (hfit.trans p.nUbatch_le)).trans_eq
      List.length_replicate.symm

/-! Runs of calls. -/

/-- The batch that a call accepts. -/
def Op.accepted (p : Params) : Op R E → Option Allocr
  | .decode batch mem _ embeddings _ => init batch p.nVocab p.seqMax (some mem) embeddings
  | .encode batch _ _ => init batch p.nVocab p.seqMax none true
  | _ => none

def Op.read (p : Params) : Op R E → Graph R E
  | .decode _ _ _ embeddings g => g.read embeddings
  | .encode _ embeddings g => g.read (embeddings || p.t5)
  | _ => ⟨none, none⟩

def Op.isGet : Op R E → Bool
  | .decode .. => false
  | .encode .. => false
  | _ => true

/-- No swaps are pending where `encode` is called, and embeddings are not pooled. -/
def Clean (p : Params) (st : State R E) (op : Op R E) : Prop :=
  ReadsTokens p (op.read p) ∧ match op with
    | .encode .. => st.swaps = []
    | _ => True

theorem step_ready {st : State R E} (hb : op.accepted p = some b) (hst : Clean p st op)
    (h : step p st op = some st') : ∃ outIds, Ready (outputs b) outIds (op.read p) st' := by
  cases op with
  | decode batch mem kind embeddings g => exact decode_ready hb hst.1 h
  | encode batch embeddings g => exact ⟨_, encode_ready hb hst.2 hst.1 h⟩
  | getLogits => cases hb
  | getLogitsIth i => cases hb
  | getEmbeddings => cases hb
  | getEmbeddingsIth i => cases hb

/-- An access leaves the state that `output_reorder` makes. -/
theorem step_get {st : State R E} (hget : op.isGet = true) (p : Params) :
    step p st op = st.reorder := by
  have hsnd {β : Type} (f : State R E → β) :
      (st.reorder.map fun st => (f st, st)).map Prod.snd = st.reorder := by
    rw [Option.map_map]
    exact Option.map_id'
  cases op with
  | decode => cases hget
  | encode => cases hget
  | getLogits => exact hsnd _
  | getLogitsIth i => exact hsnd _
  | getEmbeddings => exact hsnd _
  | getEmbeddingsIth i => exact hsnd _

/-- The accesses keep the rows of the call, and the first of them applies its swaps. -/
theorem gets_ready {st : State R E} {g : Graph R E} (h : Ready outs outIds g st)
    (hgets : ∀ op ∈ gets, Op.isGet op = true) (hrun : run (step p) st gets = some st') :
    ∃ outIds', Ready outs outIds' g st' ∧ (gets ≠ [] → st'.swaps = []) := by
  induction gets generalizing st outIds with
  | nil =>
    cases hrun
    exact ⟨outIds, h, fun hne => (hne rfl).elim⟩
  | cons op gets ih =>
    obtain ⟨hop, hgets⟩ := List.forall_mem_cons.1 hgets
    obtain ⟨u, hu, hnone, hready⟩ := h.reorder
    rw [run, step_get hop, hu, Option.bind_some] at hrun
    obtain ⟨outIds', hready', hswaps⟩ := ih hready hgets hrun
    refine ⟨outIds', hready', fun _ => ?_⟩
    cases gets with
    | nil =>
      cases hrun
      exact hnone
    | cons op' gets => exact hswaps (List.cons_ne_nil _ _)

/-- In a run without `encode` calls while swaps are pending, the accesses return the rows of the
last decode or encode call for its output tokens and in their order; the swaps that are pending
behind that call lead from the rows as computed to this order, and are gone with an access. -/
theorem outputs_returned (p : Params) {call : Op R E} (hb : call.accepted p = some b)
    (hgets : ∀ op ∈ gets, Op.isGet op = true)
    (hrun : run (step p) fresh (ops ++ call :: gets) = some st)
    (hclean : EachStep (step p) (Clean p) fresh (ops ++ call :: gets)) :
    Answers (outputs b) (call.read p) st ∧ (gets ≠ [] → st.swaps = []) ∧
      ∃ outIds, Ready (outputs b) outIds (call.read p) st := by
  generalize (fresh : State R E) = s₀ at hrun hclean
  induction ops generalizing s₀ with
  | nil =>
    obtain ⟨hop, _⟩ := hclean
    obtain ⟨u, hu, hrun⟩ := Option.bind_eq_some_iff.1 hrun
    obtain ⟨outIds, hready⟩ := step_ready hb hop hu
    obtain ⟨outIds', hready', hswaps⟩ := gets_ready hready hgets hrun
    exact ⟨hready'.answers, hswaps, outIds', hready'⟩
  | cons op ops ih =>
    obtain ⟨_, hclean⟩ := hclean
    obtain ⟨u, hu, hrun⟩ := Option.bind_eq_some_iff.1 hrun
    exact ih u hrun (hclean u hu)

/-- Two sequences that take turns; their tokens are computed sequence by sequence. -/
def turns : LlamaBatch where
  entries := [⟨5, 0, [0], true⟩, ⟨6, 0, [1], true⟩, ⟨7, 1, [0], true⟩, ⟨8, 1, [1], true⟩]
  hasToken := true
  hasPos := true
  hasSeqId := true
  hasLogits := true

def fourTokens : Params := ⟨10, 2, false, false, .none, 4, 4, Nat.succ_pos 3, Nat.le_refl 4⟩

/-- A decode of the batch whose logits are numbers from this one on. -/
def decodeTurns (n : Nat) : Op Nat Nat :=
  .decode turns emptyMemory (.equal true) false ⟨some fun i => n + i, none⟩

theorem outputs_returned_turns : ∃ b st, (decodeTurns 0).accepted fourTokens = some b ∧
    run (step fourTokens) fresh ([] ++ decodeTurns 0 :: [.getLogits]) = some st ∧
    Answers (outputs b) ((decodeTurns 0).read fourTokens) st ∧
    ([Op.getLogits (R := Nat) (E := Nat)] ≠ [] → st.swaps = []) ∧
      ∃ outIds, Ready (outputs b) outIds ((decodeTurns 0).read fourTokens) st := by
  have hinit : ((decodeTurns 0).accepted fourTokens).isSome = true := by decide +kernel
  have hsome : (run (step fourTokens) fresh
      ([] ++ decodeTurns 0 :: [.getLogits])).isSome = true := by decide +kernel
  obtain ⟨b, hb⟩ := Option.isSome_iff_exists.1 hinit
  obtain ⟨st, hrun⟩ := Option.isSome_iff_exists.1 hsome
  have hgets : ∀ op ∈ [Op.getLogits (R := Nat) (E := Nat)], Op.isGet op = true := by
    rw [List.forall_mem_singleton]
    rfl
  exact ⟨b, st, hb, hrun, outputs_returned fourTokens hb hgets hrun
    ⟨⟨fun _ => rfl, trivial⟩, fun _ _ => ⟨⟨fun _ => rfl, trivial⟩, fun _ _ => trivial⟩⟩⟩

/-- An encode of the batch. -/
def encodeTurns (n : Nat) : Op Nat Nat := .encode turns false ⟨some fun i => n + i, none⟩

/-- The swaps of a decode are applied to the rows of an encode. -/
theorem encode_swapped : ∃ b st, (encodeTurns 10).accepted fourTokens = some b ∧
    run (step fourTokens) fresh [decodeTurns 0, encodeTurns 10] = some st ∧
    ¬ Answers (outputs b) ((encodeTurns 10).read fourTokens) st := by
  have hinit : ((encodeTurns 10).accepted fourTokens).map (fun b => decide (1 ∈ outputs b)) =
      some true := by decide +kernel
  have hrows : (run (step fourTokens) fresh [decodeTurns 0, encodeTurns 10]).map (fun st =>
      (st.getLogitsIth 1).map Prod.fst) = some (some (some (some 12))) := by decide +kernel
  obtain ⟨b, hb, hmem⟩ := Option.map_eq_some_iff.1 hinit
  obtain ⟨st, hrun, hrow⟩ := Option.map_eq_some_iff.1 hrows
  refine ⟨b, st, hb, hrun, fun h => ?_⟩
  obtain ⟨row, st', he, hright⟩ := h.logitsIth 1 (of_decide_eq_true hmem)
  have hnat : st.getLogitsIth ((1 : Nat) : Int) = st.getLogitsIth 1 := rfl
  rw [← hnat, he, Option.map_some] at hrow
  have hwrong := Option.some.inj hrow
  rw [hright _ rfl] at hwrong
  cases hwrong

end ActQuant.Context
