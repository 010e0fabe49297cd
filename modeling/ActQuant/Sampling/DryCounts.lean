import ActQuant.Lib.CommonPrefix
import ActQuant.Lib.Lists
import ActQuant.Sampling.Sampler

namespace ActQuant.Sampling
open ActQuant.Lib Floats

section Ring

/-- A ring buffer after a history of values, of which it holds the last ones. -/
structure RingBuffer.Holds (b : RingBuffer α) (history : List α) : Prop where
  capacity_pos : 0 < b.capacity
  length : b.data.length = b.capacity
  sz : b.sz = min history.length b.capacity
  first : b.first = (history.length - b.sz) % b.capacity
  pos : b.pos = history.length % b.capacity
  data : ∀ j < history.length, history.length - b.sz ≤ j → b.data[j % b.capacity]? = history[j]?

theorem RingBuffer.holds_ofCapacity [Inhabited α] (h : 0 < cap) :
    (RingBuffer.ofCapacity cap : RingBuffer α).Holds [] where
  capacity_pos := h
  length := List.length_replicate
  sz := (Nat.zero_min cap).symm
  first := (Nat.zero_mod cap).symm
  pos := (Nat.zero_mod cap).symm
  data := fun j hj _ => by cases hj

theorem RingBuffer.Holds.rat {b : RingBuffer α} (h : b.Holds history) (hi : i < b.sz) :
    b.rat i = history.reverse[i]? := by
  have hsz := h.sz
  have hplace : (b.first + b.sz - i - 1) % b.capacity = (history.length - 1 - i) % b.capacity := by
    have hsum : b.first + b.sz - i - 1 = b.first + (b.sz - i - 1) := by omega
    rw [hsum, h.first, Nat.mod_add_mod]
    exact congrArg (· % b.capacity) (by omega)
  rw [RingBuffer.rat, if_neg (Nat.not_le.2 hi), hplace, h.data _ (by omega) (by omega),
    List.getElem?_reverse (by omega)]

/-- Two of the last positions of a buffer do not lie in one place. -/
theorem mod_ne_of_near {j l cap : Nat} (hlt : j < l) (hnear : l < j + cap) : j % cap ≠ l % cap := by
  intro h
  have hzero := Nat.sub_mod_eq_zero_of_mod_eq h.symm
  rw [Nat.mod_eq_of_lt (by omega)] at hzero
  omega

theorem RingBuffer.Holds.pushBack {b : RingBuffer α} (h : b.Holds history) (value : α) :
    ∃ b', b.pushBack value = some b' ∧ b'.capacity = b.capacity ∧
      b'.Holds (history ++ [value]) := by
  have hpos := h.capacity_pos
  have hsz := h.sz
  have hset (sz' : Nat) (hsz' : sz' ≤ b.sz + 1) (hle : sz' ≤ b.capacity) (j : Nat)
      (hj : j < (history ++ [value]).length) (hlast : (history ++ [value]).length - sz' ≤ j) :
      (b.data.set b.pos value)[j % b.capacity]? = (history ++ [value])[j]? := by
    rw [List.length_append, List.length_singleton] at hj hlast
    rw [h.pos]
    by_cases hnew : j = history.length
    · subst hnew
      rw [List.getElem?_set_self (by rw [h.length]; exact Nat.mod_lt _ hpos),
        List.getElem?_concat_length]
    · rw [List.getElem?_set_ne (mod_ne_of_near (by omega) (by omega)).symm,
        List.getElem?_append_left (by omega)]
      exact h.data j (by omega) (by omega)
  have hposNew : (b.pos + 1) % b.capacity = (history ++ [value]).length % b.capacity := by
    rw [h.pos, Nat.mod_add_mod, List.length_append, List.length_singleton]
  rw [RingBuffer.pushBack, if_neg (Nat.pos_iff_ne_zero.1 hpos)]
  by_cases hfull : b.sz = b.capacity
  · refine ⟨_, if_pos hfull, rfl, hpos, ?_, ?_, ?_, hposNew, ?_⟩
    · rw [List.length_set, h.length]
    · change b.sz = min (history ++ [value]).length b.capacity
      rw [List.length_append, List.length_singleton]
      omega
    · change (b.first + 1) % b.capacity = ((history ++ [value]).length - b.sz) % b.capacity
      rw [h.first, Nat.mod_add_mod, List.length_append, List.length_singleton]
      exact congrArg (· % b.capacity) (by omega)
    · exact hset b.sz (by omega) (by omega)
  · refine ⟨_, if_neg hfull, rfl, hpos, ?_, ?_, ?_, hposNew, ?_⟩
    · rw [List.length_set, h.length]
    · change b.sz + 1 = min (history ++ [value]).length b.capacity
      rw [List.length_append, List.length_singleton]
      omega
    · change b.first = ((history ++ [value]).length - (b.sz + 1)) % b.capacity
      rw [h.first, List.length_append, List.length_singleton]
      exact congrArg (· % b.capacity) (by omega)
    · exact hset (b.sz + 1) (by omega) (by omega)

end Ring

namespace Dry

section Counts
variable {toks : List Int} {limit : Nat}

theorem matchEnd_spec (toks : List Int) (k n i : Nat) :
    i ≤ matchEnd toks k n i ∧ matchEnd toks k n i ≤ i + n ∧
      (∀ j, i ≤ j → j < matchEnd toks k n i → toks[j]? = toks[j - k]?) ∧
      (matchEnd toks k n i = i + n ∨
        toks[matchEnd toks k n i]? ≠ toks[matchEnd toks k n i - k]?) := by
  induction n generalizing i with
  | zero => exact ⟨Nat.le_refl i, Nat.le_refl i, fun j hj hlt => by rw [matchEnd] at hlt; omega,
      .inl rfl⟩
  | succ n ih =>
    rw [matchEnd]
    split
    case isFalse hne =>
      exact ⟨Nat.le_refl i, Nat.le_add_right i _, fun j hj hlt => by omega, .inr hne⟩
    case isTrue heq =>
      obtain ⟨hle, hge, hall, hstop⟩ := ih (i + 1)
      refine ⟨by omega, by omega, fun j hj hlt => ?_, hstop.imp_left fun h => by omega⟩
      by_cases hji : j = i
      · rw [hji]
        exact heq
      · exact hall j (by omega) hlt

/-- The loops of the algorithm go on to the extent, from where agreement is known. -/
theorem extent_matchEnd (h : Agrees toks k (i - k)) (hki : k ≤ i) (hi : i ≤ toks.length) :
    i ≤ matchEnd toks k (toks.length - i) i ∧ matchEnd toks k (toks.length - i) i ≤ toks.length ∧
      Extent toks k (matchEnd toks k (toks.length - i) i - k) := by
  obtain ⟨hle, hge, hall, hstop⟩ := matchEnd_spec toks k (toks.length - i) i
  generalize matchEnd toks k (toks.length - i) i = e at *
  refine ⟨hle, by omega, by omega, fun j hj => ?_, ?_⟩
  · by_cases hji : j < i - k
    · exact h j hji
    · rw [hall (k + j) (by omega) (by omega), Nat.add_sub_cancel_left]
  · rw [Nat.add_sub_cancel' (by omega)]
    exact hstop.imp_left fun h => by omega

theorem exists_extent (h : k ≤ toks.length) : ∃ n, Extent toks k n := by
  have hnone : Agrees toks k (k - k) := fun j hj => by omega
  exact ⟨_, (extent_matchEnd hnone (Nat.le_refl k) h).2.2⟩

/-- The counts up to a place are right, and the box is a stretch that repeats the start. -/
structure ZBox.Inv (toks : List Int) (limit k : Nat) (z : ZBox) : Prop where
  length : z.counts.length = toks.length
  counts : ∀ j, 1 ≤ j → j < k →
    ∃ n, Extent toks j n ∧ z.counts[toks.length - 1 - j]? = some (min n limit)
  lt_le : z.lt ≤ z.rt
  lt_lt : z.lt < k
  rt_lt : z.rt < toks.length
  box : Agrees toks z.lt (z.rt + 1 - z.lt)
  start : z.lt = 0 → z.rt = 0

theorem ZBox.Inv.set {z : ZBox} (h : z.Inv toks limit k) (hk : 1 ≤ k) (hlt : k < toks.length)
    (hn : Extent toks k n) (hc : c = min n limit) (lt rt : Nat) (hle : lt ≤ rt) (hlk : lt < k + 1)
    (hrt : rt < toks.length) (hbox : Agrees toks lt (rt + 1 - lt)) (hstart : lt = 0 → rt = 0) :
    ZBox.Inv toks limit (k + 1) ⟨z.counts.set (toks.length - 1 - k) c, lt, rt⟩ where
  length := by rw [List.length_set, h.length]
  counts := by
    intro j hj hjk
    by_cases heq : j = k
    · subst heq
      refine ⟨n, hn, ?_⟩
      rw [List.getElem?_set_self (by rw [h.length]; omega), hc]
    · rw [List.getElem?_set_ne (by omega)]
      exact h.counts j hj (by omega)
  lt_le := hle
  lt_lt := hlk
  rt_lt := hrt
  box := hbox
  start := hstart

theorem zStep_inv {z : ZBox} (h : z.Inv toks limit k) (hk : 1 ≤ k) (hlt : k < toks.length) :
    (zStep toks limit z k).Inv toks limit (k + 1) := by
  have hrt := h.rt_lt
  have hle := h.lt_le
  have hlk := h.lt_lt
  rw [zStep]
  by_cases hout : z.rt < k
  · -- outside of the box
    have hnone : Agrees toks k (k - k) := fun j hj => by omega
    obtain ⟨-, hend, hext⟩ := extent_matchEnd hnone (Nat.le_refl k) (Nat.le_of_lt hlt)
    rw [if_pos hout]
    generalize matchEnd toks k (toks.length - k) k - k = n at hext ⊢
    have hfit := hext.le
    by_cases hpos : 0 < n
    · rw [if_pos hpos]
      refine h.set hk hlt hext rfl k (k + n - 1) (by omega) (by omega) (by omega) ?_ (by omega)
      exact hext.agrees.mono (by omega)
    · rw [if_neg hpos]
      exact h.set hk hlt hext rfl z.lt z.rt hle (by omega) hrt h.box h.start
  · have hstart : z.lt ≠ 0 := fun h0 => by have := h.start h0; omega
    obtain ⟨m, hm, hget⟩ := h.counts (k - z.lt) (by omega) (by omega)
    have hpair : z.counts.getD (toks.length - 1 - (k - z.lt)) 0 = min m limit := by
      rw [List.getD_eq_getElem?_getD, hget, Option.getD_some]
    have hboxLe : z.lt + (z.rt + 1 - z.lt) ≤ toks.length := by omega
    rw [if_neg hout, hpair]
    by_cases hshort : min m limit < z.rt - k + 1
    · -- the pair's count is taken over: its extent ends in the box, or both pass the limit
      obtain ⟨n, hn⟩ := exists_extent (Nat.le_of_lt hlt)
      have hcount : min (min m limit) limit = min n limit := by
        by_cases hin : k + m < z.lt + (z.rt + 1 - z.lt)
        · rw [(Extent.copy h.box (by omega) hboxLe hm hin).unique hn]
          omega
        · have hseed := Extent.seed h.box (Nat.le_of_lt_succ (by omega)) hm (Nat.le_of_not_lt hin)
          have hlong := hn.le_of_agrees hseed (by omega)
          omega
      rw [if_pos hshort]
      exact h.set hk hlt hn hcount z.lt z.rt hle (by omega) hrt h.box h.start
    · -- the pair's extent reaches the end of the box, and the loop goes on from there
      have hseed : Agrees toks k (z.rt + 1 - k) := by
        have hall := Extent.seed h.box (Nat.le_of_lt_succ (by omega)) hm (by omega)
        exact hall.mono (by omega)
      obtain ⟨hge, hend, hext⟩ := extent_matchEnd hseed (by omega) (by omega)
      rw [if_neg hshort]
      generalize matchEnd toks k (toks.length - (z.rt + 1)) (z.rt + 1) = i at hge hend hext ⊢
      refine h.set hk hlt hext rfl k (i - 1) (by omega) (by omega) (by omega) ?_ (by omega)
      exact hext.agrees.mono (by omega)

theorem foldl_zStep_inv {z : ZBox} (h : z.Inv toks limit k) (hk : 1 ≤ k)
    (hn : k + n ≤ toks.length) :
    ((List.range' k n).foldl (zStep toks limit) z).Inv toks limit (k + n) := by
  induction n generalizing k z with
  | zero => exact h
  | succ n ih =>
    rw [List.range'_succ, List.foldl_cons]
    have hstep := zStep_inv h hk (by omega)
    have hrest := ih hstep (by omega) (by omega)
    rwa [Nat.add_right_comm, Nat.add_assoc] at hrest

theorem repeatCounts_spec (toks : List Int) (limit : Nat) :
    (repeatCounts toks limit).length = toks.length ∧
      ∀ k, 1 ≤ k → k < toks.length →
        ∃ n, Extent toks k n ∧
          (repeatCounts toks limit)[toks.length - 1 - k]? = some (min n limit) := by
  rw [repeatCounts]
  by_cases hnil : toks.length = 0
  · rw [hnil]
    exact ⟨rfl, fun k _ hk => by omega⟩
  · have hinit : ZBox.Inv toks limit 1 ⟨List.replicate toks.length 0, 0, 0⟩ :=
      ⟨List.length_replicate, fun j hj hlt => by omega, Nat.le_refl 0, Nat.one_pos,
        Nat.pos_of_ne_zero hnil, fun j _ => congrArg (toks[·]?) (Nat.zero_add j), fun _ => rfl⟩
    have hfinal := foldl_zStep_inv hinit (Nat.le_refl 1) (n := toks.length - 1) (by omega)
    refine ⟨hfinal.length, fun k hk hlt => hfinal.counts k hk (by omega)⟩

/-- The counts, if long enough, of the places that a token comes after. -/
def countsBefore (allowedLength : Int) (context : List Int) (counts : List Nat) (token : Int) :
    Set Nat :=
  {c | ∃ k, 1 ≤ k ∧ k < context.length ∧ context[context.length - k]? = some token ∧
    counts[context.length - 1 - k]? = some c ∧ allowedLength ≤ c}

theorem maxTokenRepeat_eq (allowedLength : Int) (toks : List Int) (counts : List Nat) :
    maxTokenRepeat allowedLength toks counts =
      (List.range (toks.length - 1)).foldl (fun d i =>
        if allowedLength ≤ counts.getD i 0 then
          Dict.setMax (toks.getD (toks.length - 2 - i) 0) (counts.getD i 0) d else d) [] := by
  rw [maxTokenRepeat]
  congr 1
  funext d i
  rw [Dict.setMax]
  by_cases hp : allowedLength ≤ (counts.getD i 0 : Int)
  · simp only [hp, true_and, if_true]
  · simp only [hp, false_and, if_false]

theorem maxTokenRepeat_spec {context : List Int} {counts : List Nat} (allowedLength : Int)
    (hlen : counts.length = context.length) (token : Int) (c : Nat) :
    (maxTokenRepeat allowedLength context.reverse counts).lookup token = some c ↔
      IsGreatest (countsBefore allowedLength context counts token) c := by
  have htoken (i : Nat) (hi : i < context.length - 1) :
      context[i + 1]? = some (context.reverse.getD (context.length - 2 - i) 0) := by
    rw [← getElem?_eq_some_getD 0 (by rw [List.length_reverse]; omega),
      List.getElem?_reverse (by omega)]
    exact congrArg (context[·]?) (by omega)
  have hvalues : Dict.valuesAt (fun i => context.reverse.getD (context.length - 2 - i) 0)
      (fun i => allowedLength ≤ counts.getD i 0) (counts.getD · 0)
      (List.range (context.length - 1)) token =
        countsBefore allowedLength context counts token := by
    ext c
    constructor
    · rintro ⟨i, hi, hallowed, rfl, rfl⟩
      rw [List.mem_range] at hi
      refine ⟨context.length - 1 - i, by omega, by omega, ?_, ?_, hallowed⟩
      · rw [show context.length - (context.length - 1 - i) = i + 1 by omega]
        exact htoken i hi
      · rw [show context.length - 1 - (context.length - 1 - i) = i by omega]
        exact getElem?_eq_some_getD 0 (by omega)
    · rintro ⟨k, hk, hlt, hget, hcount, hallowed⟩
      have hc : counts.getD (context.length - 1 - k) 0 = c := by
        rw [List.getD_eq_getElem?_getD, hcount, Option.getD_some]
      refine ⟨context.length - 1 - k, List.mem_range.2 (by omega), ?_, ?_, hc⟩
      · change allowedLength ≤ (counts.getD (context.length - 1 - k) 0 : Int)
        rwa [hc]
      · have hnext := htoken (context.length - 1 - k) (by omega)
        rw [show context.length - 1 - k + 1 = context.length - k by omega, hget] at hnext
        exact (Option.some.inj hnext).symm
  have hspec := Dict.hasGreatest_foldl_setMax
    (fun i => context.reverse.getD (context.length - 2 - i) 0)
    (fun i => allowedLength ≤ counts.getD i 0) (counts.getD · 0)
    (List.range (context.length - 1)) token
  rw [hvalues] at hspec
  rw [maxTokenRepeat_eq, List.length_reverse]
  exact hspec.lookup_eq_some

end Counts

section Feed
variable [Floats F] {ctx ctx' : Dry F}

theorem accept_of_enabled (hon : ¬ ctx.Disabled) (token : Int) :
    ctx.accept token = (ctx.lastTokens.pushBack token).map fun b => { ctx with lastTokens := b } :=
  if_neg hon

theorem run_accept (hon : ¬ ctx.Disabled) (hb : ctx.lastTokens.Holds before)
    (h : run accept ctx history = some ctx') :
    ∃ b, ctx' = { ctx with lastTokens := b } ∧ b.capacity = ctx.lastTokens.capacity ∧
      b.Holds (before ++ history) := by
  induction history generalizing ctx before with
  | nil =>
    cases h
    rw [List.append_nil]
    exact ⟨_, rfl, rfl, hb⟩
  | cons token history ih =>
    obtain ⟨c, hc, h⟩ := Option.bind_eq_some_iff.1 h
    obtain ⟨b, hpush, hcap, hb⟩ := hb.pushBack token
    rw [accept_of_enabled hon, hpush] at hc
    cases hc
    have hfed : ¬ ({ ctx with lastTokens := b } : Dry F).Disabled := hon
    obtain ⟨b', hctx, hcap', hb'⟩ := ih hfed hb h
    rw [List.append_assoc, List.singleton_append] at hb'
    exact ⟨b', hctx, hcap'.trans hcap, hb'⟩

/-- The last tokens of a sampler that took in a history from the start. -/
theorem lastTokens_of_run (hon : ¬ ctx.Disabled) (hb : ctx.lastTokens = .ofCapacity cap)
    (h : run accept ctx history = some ctx') :
    ∃ b, ctx' = { ctx with lastTokens := b } ∧ b.sz = min history.length cap ∧
      ∀ i < b.sz, b.rat i = history.reverse[i]? := by
  by_cases hcap : cap = 0
  · subst hcap
    cases history with
    | nil =>
      cases h
      refine ⟨_, rfl, ?_⟩
      rw [hb]
      exact ⟨rfl, fun i hi => by cases hi⟩
    | cons token history =>
      rw [run, accept_of_enabled hon, hb] at h
      cases h
  · have hholds := RingBuffer.holds_ofCapacity (α := Int) (Nat.pos_of_ne_zero hcap)
    rw [← hb] at hholds
    obtain ⟨b, hctx, hcap', hb'⟩ := run_accept hon hholds h
    rw [List.nil_append] at hb'
    have hsz := hb'.sz
    rw [hcap', hb] at hsz
    exact ⟨b, hctx, hsz, fun i hi => hb'.rat hi⟩

/-- A call that comes to the loops, by the tokens it reads. -/
theorem apply_of_tokens (hon : ¬ ctx.Disabled) (hnonneg : 0 ≤ n)
    (hn : min (min (ctx.lastTokens.sz : Int)
      (effectiveLastN ctx.dryPenaltyLastN ctx.totalContextSize)) ctx.totalContextSize = n)
    (hlong : ctx.dryAllowedLength < n)
    (htoks : (List.range n.toNat).mapM ctx.lastTokens.rat = some toks)
    (hfree : ctx.dryAllowedLength ≤ repLimit ctx.dryProcessedBreakers toks) (cur : Cands F) :
    ∃ ctx' cur', ctx.apply cur = some (ctx', cur') ∧
      ctx'.dryRepeatCount = repeatCounts toks (repLimit ctx.dryProcessedBreakers toks) ∧
      ctx'.dryMaxTokenRepeat =
        maxTokenRepeat ctx.dryAllowedLength toks ctx'.dryRepeatCount := by
  rw [apply, if_neg hon]
  simp only [hn, if_neg (not_le.2 hlong), if_neg (not_lt.2 hnonneg), htoks, Option.map_some,
    if_neg (not_lt.2 hfree)]
  exact ⟨_, _, rfl, rfl, rfl⟩

end Feed

section Main
variable [Floats F] (nCtxTrain : Int) (dryMultiplier dryBase : F)
  (dryAllowedLength dryPenaltyLastN : Int) (breakers : List (Int × List Int))

/-- How many of the last tokens of a history the sampler looks at. -/
def lastNRepeat (history : List Int) : Int :=
  min (min (history.length : Int) (effectiveLastN dryPenaltyLastN nCtxTrain)) nCtxTrain

/-- The recent context. -/
def recent (history : List Int) : List Int :=
  history.drop (history.length - (lastNRepeat nCtxTrain dryPenaltyLastN history).toNat)

/-- The call comes to the loop of the Z-algorithm. -/
structure Counting (history : List Int) : Prop where
  enabled : ¬ (dryMultiplier = ofRat 0 ∨ dryBase < ofRat 1 ∨ dryPenaltyLastN = 0)
  nonneg : 0 ≤ lastNRepeat nCtxTrain dryPenaltyLastN history
  long : dryAllowedLength < lastNRepeat nCtxTrain dryPenaltyLastN history
  free : dryAllowedLength ≤ repLimit breakers (recent nCtxTrain dryPenaltyLastN history).reverse

/-- The counts of a context: for the context that ends so many tokens earlier, the longest common
suffix with the whole one, up to the limit. -/
def CountsRepeats (context : List Int) (limit : Nat) (counts : List Nat) : Prop :=
  counts.length = context.length ∧
    ∀ k, 1 ≤ k → k < context.length →
      ∃ n, IsGreatest (commonSuffixes context (context.take (context.length - k))) n ∧
        counts[context.length - 1 - k]? = some (min n limit)

variable {nCtxTrain dryMultiplier dryBase dryAllowedLength dryPenaltyLastN breakers}

theorem countsRepeats_repeatCounts (context : List Int) (limit : Nat) :
    CountsRepeats context limit (repeatCounts context.reverse limit) := by
  obtain ⟨hlen, hcounts⟩ := repeatCounts_spec context.reverse limit
  rw [List.length_reverse] at hlen hcounts
  refine ⟨hlen, fun k hk hlt => ?_⟩
  obtain ⟨n, hn, hget⟩ := hcounts k hk hlt
  have hgreatest := hn.isGreatest
  rw [List.reverse_reverse, List.length_reverse] at hgreatest
  exact ⟨n, hgreatest, hget⟩

/-- What the loop of `Dry.apply` over the ring buffer collects. -/
theorem mapM_rat {b : RingBuffer Int} {history : List Int}
    (hsz : b.sz = min history.length cap) (hn : n ≤ b.sz)
    (hrat : ∀ i < b.sz, b.rat i = history.reverse[i]?) :
    (List.range n).mapM b.rat = some (history.drop (history.length - n)).reverse := by
  have hlen : n ≤ history.length := by omega
  have htake : (List.range n).map (history.reverse.getD · 0) = history.reverse.take n := by
    apply List.ext_getElem?
    intro i
    rw [List.getElem?_map, List.getElem?_take]
    by_cases hi : i < n
    · rw [if_pos hi, List.getElem?_range hi, Option.map_some]
      exact (getElem?_eq_some_getD 0 (by rw [List.length_reverse]; omega)).symm
    · rw [if_neg hi, List.getElem?_eq_none (by rw [List.length_range]; omega), Option.map_none]
  rw [List.reverse_drop, Nat.sub_sub_self hlen, ← htake]
  refine mapM_eq_some_map fun i hi => ?_
  rw [List.mem_range] at hi
  rw [hrat i (by omega)]
  exact getElem?_eq_some_getD 0 (by rw [List.length_reverse]; omega)

/-- The repeat counts are right for every history, and the map has for each token the greatest of
the counts of the places it comes after. -/
theorem apply_counts (hcounting : Counting nCtxTrain dryMultiplier dryBase dryAllowedLength
      dryPenaltyLastN breakers history)
    (hrun : run accept (init nCtxTrain dryMultiplier dryBase dryAllowedLength dryPenaltyLastN
      breakers) history = some ctx) (cur : Cands F) :
    ∃ ctx' cur', ctx.apply cur = some (ctx', cur') ∧
      CountsRepeats (recent nCtxTrain dryPenaltyLastN history)
        (repLimit breakers (recent nCtxTrain dryPenaltyLastN history).reverse)
        ctx'.dryRepeatCount ∧
      ∀ token c, ctx'.dryMaxTokenRepeat.lookup token = some c ↔
        IsGreatest (countsBefore dryAllowedLength (recent nCtxTrain dryPenaltyLastN history)
          ctx'.dryRepeatCount token) c := by
  obtain ⟨hon, hnonneg, hlong, hfree⟩ := hcounting
  generalize hctx₀ : init nCtxTrain dryMultiplier dryBase dryAllowedLength dryPenaltyLastN
    breakers = ctx₀ at hrun
  have hinit : ctx₀ = ⟨nCtxTrain, dryMultiplier, dryBase, dryAllowedLength, dryPenaltyLastN,
      breakers, List.replicate (effectiveLastN dryPenaltyLastN nCtxTrain).toNat 0, [],
      .ofCapacity (effectiveLastN dryPenaltyLastN nCtxTrain).toNat⟩ := hctx₀.symm.trans (if_neg hon)
  have henabled : ¬ ctx₀.Disabled := by
    rw [hinit]
    exact hon
  have hring : ctx₀.lastTokens = .ofCapacity (effectiveLastN dryPenaltyLastN nCtxTrain).toNat := by
    rw [hinit]
  obtain ⟨b, rfl, hsz, hrat⟩ := lastTokens_of_run henabled hring hrun
  have hN : min (min (b.sz : Int) (effectiveLastN dryPenaltyLastN nCtxTrain)) nCtxTrain =
      lastNRepeat nCtxTrain dryPenaltyLastN history := by
    rw [lastNRepeat] at hnonneg ⊢
    omega
  have htoks := mapM_rat hsz (n := (lastNRepeat nCtxTrain dryPenaltyLastN history).toNat)
    (by omega) hrat
  change _ = some (recent nCtxTrain dryPenaltyLastN history).reverse at htoks
  have hfed : ¬ ({ ctx₀ with lastTokens := b } : Dry F).Disabled := henabled
  subst hinit
  obtain ⟨ctx', cur', happly, hcounts, hmax⟩ :=
    apply_of_tokens hfed hnonneg hN hlong htoks hfree cur
  have hspec := countsRepeats_repeatCounts (recent nCtxTrain dryPenaltyLastN history)
    (repLimit breakers (recent nCtxTrain dryPenaltyLastN history).reverse)
  rw [← hcounts] at hspec
  refine ⟨ctx', cur', happly, hspec, ?_⟩
  rw [hmax]
  exact maxTokenRepeat_spec dryAllowedLength hspec.1

/-- A sampler with one restart sequence, and the tokens of `a b c c b c y a b c`. -/
theorem apply_counts_tenTokens : ∃ ctx ctx' : Dry Exact, ∃ cur' : Cands Exact,
    run accept (init (F := Exact) 16 (some 1) (some 2) 1 (-1) [(7, [8])])
      [1, 2, 3, 3, 2, 3, 9, 1, 2, 3] = some ctx ∧
    ctx.apply ⟨[⟨3, some 4, some 0⟩], -1, false⟩ = some (ctx', cur') ∧
    CountsRepeats [1, 2, 3, 3, 2, 3, 9, 1, 2, 3] 10 ctx'.dryRepeatCount ∧
    ∀ token c, ctx'.dryMaxTokenRepeat.lookup token = some c ↔
      IsGreatest (countsBefore 1 [1, 2, 3, 3, 2, 3, 9, 1, 2, 3] ctx'.dryRepeatCount token) c := by
  have henabled :
      ¬ (⟨16, some 1, some 2, 1, -1, [], [], [], .ofCapacity 0⟩ : Dry Exact).Disabled := by
    decide +kernel
  have hcounting : Counting (F := Exact) 16 (some 1) (some 2) 1 (-1) [(7, [8])]
      [1, 2, 3, 3, 2, 3, 9, 1, 2, 3] := ⟨henabled, by decide, by decide, by decide⟩
  obtain ⟨ctx, hctx⟩ := Option.isSome_iff_exists.1 (show (run accept (init (F := Exact) 16 (some 1)
    (some 2) 1 (-1) [(7, [8])]) [1, 2, 3, 3, 2, 3, 9, 1, 2, 3]).isSome = true by decide +kernel)
  obtain ⟨ctx', cur', h⟩ := apply_counts hcounting hctx ⟨[⟨3, some 4, some 0⟩], -1, false⟩
  exact ⟨ctx, ctx', cur', hctx, h⟩

end Main

end Dry
end ActQuant.Sampling
