import ActQuant.Batch.SplitEqual
import Mathlib.Data.List.GetD

namespace ActQuant.Batch
open ActQuant.Lib

namespace Allocr

variable {b : Allocr}

/-! The calls of a split up to the empty ubatch. -/

/-- Calls that each go on from the tokens used before. -/
def Goes (b : Allocr) (kind : Split) (n : Nat) : Finset Nat → List Call → Prop
  | _, [] => True
  | used, call :: calls =>
    (call.idxs = b.idxs n used kind ∧ call.idxs ≠ [] ∧
      call.ubatch = b.ubatchAdd call.idxs (b.nSeqs n used kind) (kind ≠ .simple)) ∧
    Goes b kind n (used ∪ call.idxs.toFinset) calls

/-- The next call, where there is one. -/
def next (b : Allocr) (kind : Split) (n : Nat) (st : Splitter) : Call × Splitter :=
  (⟨b.idxs n st.used kind, b.ubatchAdd (b.idxs n st.used kind) (b.nSeqs n st.used kind)
      (kind ≠ .simple)⟩,
    ⟨st.used ∪ (b.idxs n st.used kind).toFinset, st.nUsed + (b.idxs n st.used kind).length,
      st.outIds ++ (b.idxs n st.used kind).filter fun i => (b.token i).output⟩)

theorem splitAll_stop (h : b.idxs n st.used kind = []) :
    b.splitAll kind n (m + 1) st = some ([], st) := by
  have hsplit : b.split kind n st = none := if_pos h
  rw [splitAll, hsplit]

theorem splitAll_call (h : b.idxs n st.used kind ≠ []) :
    b.splitAll kind n (m + 1) st = (b.splitAll kind n m (b.next kind n st).2).map fun r =>
      ((b.next kind n st).1 :: r.1, r.2) := by
  have hsplit : b.split kind n st = some (b.next kind n st) := if_neg h
  rw [splitAll, hsplit]

/-- The calls take what the rounds pick. -/
theorem splitAll_rounds (st : Splitter)
    (hend : b.idxs n (st.used ∪
      (rounds (b.idxs n · kind) m st.used).flatten.toFinset) kind = []) :
    ∃ calls used, b.splitAll kind n (m + 1) st = some (calls, ⟨used,
        st.nUsed + (calls.map Call.idxs).flatten.length,
        st.outIds ++ (calls.map Call.idxs).flatten.filter fun i => (b.token i).output⟩) ∧
      calls.map Call.idxs = rounds (b.idxs n · kind) m st.used ∧ b.Goes kind n st.used calls := by
  induction m generalizing st with
  | zero =>
    rw [rounds, List.flatten_nil, List.toFinset_nil, Finset.union_empty] at hend
    refine ⟨[], st.used, ?_, rfl, trivial⟩
    rw [splitAll_stop hend, List.map_nil, List.flatten_nil, List.filter_nil, List.append_nil,
      List.length_nil, Nat.add_zero]
  | succ m ih =>
    by_cases hnil : b.idxs n st.used kind = []
    · refine ⟨[], st.used, ?_, ?_, trivial⟩
      · rw [splitAll_stop hnil, List.map_nil, List.flatten_nil, List.filter_nil, List.append_nil,
          List.length_nil, Nat.add_zero]
      · rw [rounds, if_pos hnil, List.map_nil]
    · rw [rounds, if_neg hnil, List.flatten_cons, List.toFinset_append,
        ← Finset.union_assoc] at hend
      obtain ⟨calls, used, hall, hidxs, hgoes⟩ := ih (b.next kind n st).2 hend
      refine ⟨(b.next kind n st).1 :: calls, used, ?_, ?_, ⟨rfl, hnil, rfl⟩, hgoes⟩
      · rw [splitAll_call hnil, hall, Option.map_some, List.map_cons, List.flatten_cons,
          List.filter_append, List.length_append, ← List.append_assoc, ← Nat.add_assoc]
        rfl
      · rw [rounds, if_neg hnil, List.map_cons, hidxs]
        rfl

/-- What the call does is in order: it finds no more sequence sets than fit, and takes no token
past an unused one of the same sequence. -/
def Fair (b : Allocr) (n : Nat) (used : Finset Nat) : Split → Prop
  | .simple => True
  | .equal sequential =>
    (b.curSeqSets n sequential used).length ≤ n ∧ b.Unblocked n sequential used
  | .seq => ∀ cur ∈ b.firstUnused used, 1 < n →
    b.Descends n used (b.behind cur) (b.seqSet cur) 1 []

/-- What the used tokens are like between the calls. -/
def Used (b : Allocr) (used : Finset Nat) : Split → Prop
  | .simple => b.Front used
  | .equal _ => b.Fronts used
  | .seq => True

theorem used_empty (b : Allocr) (kind : Split) : b.Used ∅ kind := by
  cases kind with
  | simple => exact ⟨0, Nat.zero_le _, rfl⟩
  | equal => exact fun _ hj => (Finset.notMem_empty _ hj).elim
  | seq => trivial

theorem picks (hb : b.Seated) (hn : 1 ≤ n)
    (hr : kind = .equal true → hasCpl b.tokens = false) :
    Picks (b.idxs n · kind) (Finset.range b.nTokens) (b.Used · kind) := by
  cases kind with
  | simple => exact b.picks_simple hn
  | equal sequential => exact picks_equal hb (fun h => hr (congrArg Split.equal h)) n
  | seq => exact b.picks_seq n

theorem fair_iff (hn : 1 ≤ n) (hr : kind = .equal true → hasCpl b.tokens = false)
    (hu : b.Used used kind) :
    b.Fair n used kind ↔ (b.idxs n used kind).length ≤ n ∧
      NoJump (Finset.range b.nTokens) b.Shares used (b.idxs n used kind) := by
  cases kind with
  | simple => exact iff_of_true trivial ⟨simple_small hu hn, simple_noJump hu n⟩
  | equal sequential =>
    have hr' : b.Runs sequential := fun h => hr (congrArg Split.equal h)
    rw [equal_small_iff hr' hu, equal_noJump_iff hr' hu]
    exact Iff.rfl
  | seq =>
    rw [b.seq_noJump_iff, and_iff_right (b.seq_small used hn)]
    exact Iff.rfl

/-- What a split makes of the batch, apart from the order and the sizes. -/
structure Splits (b : Allocr) (kind : Split) (calls : List Call) (st : Splitter) : Prop where
  once : (calls.map Call.idxs).flatten.Perm (List.range b.nTokens)
  nUsed : st.nUsed = b.nTokens
  nonempty : ∀ c ∈ calls, c.idxs ≠ []
  tokens : ∀ c ∈ calls, c.ubatch.tokens = c.idxs.map b.token
  equal : ∀ sequential, kind = .equal sequential → ∀ c ∈ calls, ∃ groups,
    groups.length = c.ubatch.nSeqs ∧ b.EqualSets c.idxs groups c.ubatch.nSeqTokens
  outIds : st.outIds =
    (calls.map Call.idxs).flatten.filter fun i => (b.token i).output

/-- The tokens of each sequence come in batch order, and no ubatch is too large. -/
structure Kept (b : Allocr) (n : Nat) (calls : List Call) : Prop where
  ordered : (calls.map Call.idxs).flatten.Pairwise fun i j => b.Shares i j → i < j
  small : ∀ c ∈ calls, c.ubatch.nTokens ≤ n

theorem Goes.tokens (h : b.Goes kind n used calls) :
    ∀ c ∈ calls, c.idxs ≠ [] ∧ c.ubatch.tokens = c.idxs.map b.token := by
  induction calls generalizing used with
  | nil => exact fun _ hc => (List.not_mem_nil hc).elim
  | cons call calls ih =>
    obtain ⟨⟨_, hne, hub⟩, hrest⟩ := h
    rw [List.forall_mem_cons]
    exact ⟨⟨hne, hub ▸ rfl⟩, ih hrest⟩

/-- The ubatches of `split_equal`. -/
theorem Goes.equal (hr : b.Runs sequential) (hb : b.Seated) (hu : b.Fronts used)
    (h : b.Goes (.equal sequential) n used calls) :
    ∀ c ∈ calls, ∃ groups, groups.length = c.ubatch.nSeqs ∧
      b.EqualSets c.idxs groups c.ubatch.nSeqTokens := by
  induction calls generalizing used with
  | nil => exact fun _ hc => (List.not_mem_nil hc).elim
  | cons call calls ih =>
    obtain ⟨⟨hidxs, hne, hub⟩, hrest⟩ := h
    have hstep := (picks_equal hb hr n).step used hu
    rw [hidxs] at hne hrest
    rw [List.forall_mem_cons]
    refine ⟨?_, ih hstep hrest⟩
    obtain ⟨hpos, groups, len, hlen, hsets⟩ := equal_sets hr hu hne
    have htokens : call.ubatch.nTokens = len * groups.length := by
      rw [hub, Ubatch.nTokens, ubatchAdd, List.length_map, hidxs, hsets.parts, List.length_flatten,
        List.map_congr_left hsets.length, List.map_const', List.sum_replicate_nat, Nat.mul_comm]
    have hper : call.ubatch.nSeqTokens = len := by
      rw [Ubatch.nSeqTokens, htokens, hub, ubatchAdd, hlen]
      exact Nat.mul_div_cancel _ hpos
    refine ⟨groups, ?_, ?_⟩
    · rw [hlen, hub, ubatchAdd]
    · rw [hper, hidxs]
      exact hsets

theorem kept_iff {calls : List Call} (hcov : Covers (Finset.range b.nTokens) ∅
      (calls.map Call.idxs))
    (htokens : ∀ c ∈ calls, c.ubatch.tokens = c.idxs.map b.token) :
    b.Kept n calls ↔ EachRound (fun used xs => xs.length ≤ n ∧
      NoJump (Finset.range b.nTokens) b.Shares used xs) ∅ (calls.map Call.idxs) := by
  rw [eachRound_and, ← ordered_iff_noJump (fun _ _ h => h.symm) hcov, eachRound_iff_forall,
    List.forall_mem_map]
  constructor
  · rintro ⟨hord, hsmall⟩
    refine ⟨fun c hc => ?_, hord⟩
    have := hsmall c hc
    rwa [Ubatch.nTokens, htokens c hc, List.length_map] at this
  · rintro ⟨hsmall, hord⟩
    refine ⟨hord, fun c hc => ?_⟩
    rw [Ubatch.nTokens, htokens c hc, List.length_map]
    exact hsmall c hc

/-- A batch of tokens that are in sequences is split into ubatches to its end, each token in one;
order and sizes are kept where every call is fair. -/
theorem splitAll_spec (hb : b.Seated) (hn : 1 ≤ n)
    (hr : kind = .equal true → hasCpl b.tokens = false) :
    ∃ calls st, b.splitAll kind n (b.nTokens + 1) splitReset = some (calls, st) ∧
      b.Splits kind calls st ∧
      (b.Kept n calls ↔ EachRound (fun used _ => b.Fair n used kind) ∅ (calls.map Call.idxs)) := by
  have hp := picks hb hn hr
  have hu := b.used_empty kind
  have hcard : (Finset.range b.nTokens \ ∅).card ≤ b.nTokens := by
    rw [Finset.sdiff_empty, Finset.card_range]
  obtain ⟨hcov, hend⟩ := rounds_covers hp hu hcard
  obtain ⟨calls, used, hall, hidxs, hgoes⟩ := splitAll_rounds splitReset hend
  have hrounds : calls.map Call.idxs = rounds (b.idxs n · kind) b.nTokens ∅ := hidxs
  rw [← hrounds] at hcov
  have hperm : (calls.map Call.idxs).flatten.Perm (List.range b.nTokens) := by
    refine (List.perm_ext_iff_of_nodup hcov.nodup List.nodup_range).2 fun i => ?_
    rw [hcov.mem, Finset.mem_range, List.mem_range]
    exact and_iff_left (Finset.notMem_empty i)
  refine ⟨calls, _, hall, ⟨hperm, ?_, ?_, ?_, ?_, ?_⟩, ?_⟩
  · exact (Nat.zero_add _).trans (hperm.length_eq.trans List.length_range)
  · exact fun c hc => (hgoes.tokens c hc).1
  · exact fun c hc => (hgoes.tokens c hc).2
  · rintro sequential rfl
    exact hgoes.equal (fun h => hr (congrArg Split.equal h)) hb hu
  · exact List.nil_append _
  · rw [kept_iff hcov fun c hc => (hgoes.tokens c hc).2, hrounds]
    exact eachRound_rounds_congr hu hp.step (fun used hI => (fair_iff hn hr hI).symm) _

end Allocr

open Allocr

/-- Every token that `init` lets through is in a sequence. -/
theorem init_seated {batch : LlamaBatch} {nSeqMax : Nat}
    (h : init batch nVocab nSeqMax mem outputAll = some b) :
    b.Seated := by
  obtain ⟨_, xs, hfill, _, rfl⟩ := init_eq_some.1 h
  intro i hi
  have hin : (Allocr.mk xs nSeqMax).token i ∈ xs := by
    rw [Allocr.token, List.getD_eq_getElem _ _ hi]
    exact List.getElem_mem hi
  have hne := (LlamaBatch.fill_spec hfill).1 _ (LlamaBatch.mem_seqIds hfill hin)
  exact (List.toFinset_nonempty_iff _).2 hne

/-- Splitting an accepted batch ends and puts every token into one ubatch; the tokens of a sequence
stay in order and no ubatch is too large exactly where every call is fair. -/
theorem split_partition {batch : LlamaBatch} {nSeqMax : Nat} (kind : Split)
    (h : init batch nVocab nSeqMax mem outputAll = some b) (hn : 1 ≤ n)
    (hr : kind = .equal true → hasCpl b.tokens = false) :
    ∃ calls st, b.splitAll kind n (b.nTokens + 1) splitReset = some (calls, st) ∧
      b.Splits kind calls st ∧
      (b.Kept n calls ↔ EachRound (fun used _ => b.Fair n used kind) ∅ (calls.map Call.idxs)) :=
  splitAll_spec (init_seated h) hn hr

theorem split_partition_twoEntries :
    ∃ b, init twoEntries 10 1 (some emptyMemory) false = some b ∧
      ∃ calls st, b.splitAll (.equal true) 1 (b.nTokens + 1) splitReset = some (calls, st) ∧
        b.Splits (.equal true) calls st ∧
        (b.Kept 1 calls ↔
          EachRound (fun used _ => b.Fair 1 used (.equal true)) ∅ (calls.map Call.idxs)) := by
  have hruns : (init twoEntries 10 1 (some emptyMemory) false).map (fun b => hasCpl b.tokens) =
      some false := by decide +kernel
  obtain ⟨b, hb, hcpl⟩ := Option.map_eq_some_iff.1 hruns
  exact ⟨b, hb, split_partition (.equal true) hb (Nat.le_refl 1) fun _ => hcpl⟩

/-- Two sequences with a token each. -/
def twoSets : LlamaBatch where
  entries := [⟨7, 0, [0], true⟩, ⟨8, 0, [1], true⟩]
  hasToken := true
  hasPos := true
  hasSeqId := true
  hasLogits := true

/-- A token of two sequences between two of the first one. -/
def between : LlamaBatch where
  entries := [⟨7, 0, [0], true⟩, ⟨8, 1, [0, 1], true⟩, ⟨9, 2, [0], true⟩]
  hasToken := true
  hasPos := true
  hasSeqId := true
  hasLogits := true

/-- A ubatch of two tokens where one fits, and a token in front of one of its sequence. -/
theorem split_not_kept :
    (∃ b, init twoSets 10 2 (some emptyMemory) false = some b ∧ ∃ calls st,
      b.splitAll (.equal false) 1 (b.nTokens + 1) splitReset = some (calls, st) ∧
        ¬ ∀ c ∈ calls, c.ubatch.nTokens ≤ 1) ∧
    ∃ b, init between 10 2 (some emptyMemory) false = some b ∧ ∃ calls st,
      b.splitAll (.equal false) 8 (b.nTokens + 1) splitReset = some (calls, st) ∧
        ¬ (calls.map Call.idxs).flatten.Pairwise fun i j => b.Shares i j → i < j := by
  constructor
  · have hruns : ((init twoSets 10 2 (some emptyMemory) false).bind fun b =>
        (b.splitAll (.equal false) 1 (b.nTokens + 1) splitReset).map fun r =>
          r.1.map fun c => c.ubatch.nTokens) = some [2] := by decide +kernel
    obtain ⟨b, hb, hruns⟩ := Option.bind_eq_some_iff.1 hruns
    obtain ⟨⟨calls, st⟩, hcalls, hsizes⟩ := Option.map_eq_some_iff.1 hruns
    refine ⟨b, hb, calls, st, hcalls, fun h => ?_⟩
    have htwo : 2 ∈ calls.map fun c => c.ubatch.nTokens := by
      rw [hsizes]
      exact List.mem_cons_self
    obtain ⟨c, hc, he⟩ := List.mem_map.1 htwo
    have hle := h c hc
    omega
  · have hruns : ((init between 10 2 (some emptyMemory) false).bind fun b =>
        (b.splitAll (.equal false) 8 (b.nTokens + 1) splitReset).map fun r =>
          (decide (0 ∈ b.seqSet 2 ∧ 0 ∈ b.seqSet 1), r.1.map Call.idxs)) =
        some (true, [[0, 2], [1]]) := by decide +kernel
    obtain ⟨b, hb, hruns⟩ := Option.bind_eq_some_iff.1 hruns
    obtain ⟨⟨calls, st⟩, hcalls, hruns⟩ := Option.map_eq_some_iff.1 hruns
    obtain ⟨hshares, hidxs⟩ := Prod.mk.inj hruns
    refine ⟨b, hb, calls, st, hcalls, fun h => ?_⟩
    rw [hidxs] at h
    have hlast : b.Shares 2 1 → 2 < 1 := (List.pairwise_cons.1 (List.pairwise_cons.1 h).2).1 1
      List.mem_cons_self
    exact absurd (hlast ⟨0, of_decide_eq_true hshares⟩) (Nat.lt_asymm (Nat.lt_succ_self 1))

end ActQuant.Batch
