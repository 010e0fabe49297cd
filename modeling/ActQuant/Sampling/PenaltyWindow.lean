import ActQuant.Sampling.CloneRuns
import ActQuant.Sampling.DryCounts

namespace ActQuant.Sampling
open ActQuant.Lib Floats

section Ring

/-- The front of a buffer that is not empty is the oldest of the values it holds. -/
theorem RingBuffer.Holds.front {b : RingBuffer α} (h : b.Holds history) (hne : 0 < b.sz) :
    b.front = history[history.length - b.sz]? := by
  have hsz := h.sz
  have hdata := h.data (history.length - b.sz) (by omega) (Nat.le_refl _)
  rw [RingBuffer.front, if_neg (Nat.pos_iff_ne_zero.1 hne), h.first, hdata]

theorem RingBuffer.Holds.clear {b : RingBuffer α} (h : b.Holds history) : b.clear.Holds [] where
  capacity_pos := h.capacity_pos
  length := h.length
  sz := (Nat.zero_min _).symm
  first := (Nat.zero_mod _).symm
  pos := (Nat.zero_mod _).symm
  data := fun j hj _ => by cases hj

end Ring

section Window

/-- The last tokens of a history. -/
def window (lastN : Nat) (toks : List Int) : List Int := toks.drop (toks.length - lastN)

theorem window_of_short (h : toks.length ≤ lastN) : window lastN toks = toks := by
  rw [window, Nat.sub_eq_zero_of_le h, List.drop_zero]

theorem length_window (lastN : Nat) (toks : List Int) :
    (window lastN toks).length = min lastN toks.length := by
  rw [window, List.length_drop]
  omega

theorem window_concat_of_short (h : toks.length < lastN) (token : Int) :
    window lastN (toks ++ [token]) = window lastN toks ++ [token] := by
  rw [window_of_short (Nat.le_of_lt h), window_of_short]
  rw [List.length_append, List.length_singleton]
  exact h

/-- A full window loses its oldest token for the one that comes. -/
theorem window_concat_of_full (hpos : 0 < lastN) (h : lastN ≤ toks.length) (token : Int) :
    ∃ old, toks[toks.length - lastN]? = some old ∧
      window lastN toks ++ [token] = old :: window lastN (toks ++ [token]) := by
  have hlt : toks.length - lastN < toks.length := by omega
  refine ⟨_, List.getElem?_eq_getElem hlt, ?_⟩
  have hlen : (toks ++ [token]).length - lastN = toks.length - lastN + 1 := by
    rw [List.length_append, List.length_singleton]
    omega
  rw [window, window, hlen, List.drop_append_of_le_length hlt, List.drop_eq_getElem_cons hlt,
    List.cons_append]

end Window

namespace Penalties

/-- The map has the tokens of a list with their counts, and no other token. -/
def Counts (tokenCount : Dict Int Int) (toks : List Int) : Prop :=
  ∀ t, tokenCount.lookup t = if toks.count t = 0 then none else some (toks.count t : Int)

theorem counts_nil (lastN : Nat) : Counts [] (window lastN []) := by
  rw [window, List.drop_nil]
  exact fun _ => rfl

theorem Counts.getD (h : Counts d toks) (t : Int) : (d.lookup t).getD 0 = toks.count t := by
  rw [h t]
  split
  case isTrue hzero =>
    rw [hzero]
    rfl
  case isFalse => rfl

theorem Counts.set (h : Counts d toks) (hn : toks'.count token ≠ 0)
    (hother : ∀ t, t ≠ token → toks'.count t = toks.count t) :
    Counts (d.set token (toks'.count token : Int)) toks' := by
  intro t
  rw [Dict.lookup_set]
  by_cases ht : t = token
  · subst ht
    rw [if_pos rfl, if_neg hn]
  · rw [if_neg ht, hother t ht]
    exact h t

/-- `token_count[token]++`. -/
theorem Counts.push (h : Counts d toks) (token : Int) :
    Counts (d.set token ((d.lookup token).getD 0 + 1)) (toks ++ [token]) := by
  have hcount : (toks ++ [token]).count token = toks.count token + 1 := by
    rw [List.count_append, List.count_singleton_self]
  have hother (t : Int) (ht : t ≠ token) : (toks ++ [token]).count t = toks.count t := by
    have hnot : t ∉ [token] := fun hmem => ht (List.mem_singleton.1 hmem)
    rw [List.count_append, List.count_eq_zero_of_not_mem hnot, Nat.add_zero]
  have hset := h.set (by rw [hcount]; exact Nat.succ_ne_zero _) hother
  rw [hcount, Int.natCast_succ] at hset
  rw [h.getD]
  exact hset

/-- `token_count[old]--`, and an entry that gets to zero is erased. -/
theorem Counts.evict (h : Counts d (old :: toks)) :
    Counts (if (d.lookup old).getD 0 - 1 = 0 then d.filter fun e => e.1 ≠ old
      else d.set old ((d.lookup old).getD 0 - 1)) toks := by
  have hother (t : Int) (ht : t ≠ old) : toks.count t = (old :: toks).count t :=
    (List.count_cons_of_ne (Ne.symm ht)).symm
  rw [h.getD, List.count_cons_self, Int.natCast_succ, Int.add_sub_cancel]
  split
  case isTrue hzero =>
    intro t
    rw [Dict.lookup_filter_ne]
    by_cases ht : t = old
    · rw [if_pos ht, ht, if_pos (Int.natCast_eq_zero.1 hzero)]
    · rw [if_neg ht, hother t ht]
      exact h t
  case isFalse hne => exact h.set (fun hzero => hne (by rw [hzero]; rfl)) fun t ht => hother t ht

/-- A sampler after tokens that were accepted: the buffer and the map are those of the window. -/
structure Windowed (lastN : Nat) (toks : List Int) (ctx : Penalties F) : Prop where
  last_n : ctx.penaltyLastN = lastN
  capacity : ctx.prev.capacity = lastN
  holds : ctx.prev.Holds toks
  counts : Counts ctx.tokenCount (window lastN toks)

theorem windowed_init (h : 0 < lastN) (penaltyRepeat penaltyFreq penaltyPresent : F) :
    Windowed lastN.toNat [] (init lastN penaltyRepeat penaltyFreq penaltyPresent) := by
  have hmax : (max lastN 0).toNat = lastN.toNat := by omega
  rw [init, hmax]
  exact ⟨rfl, rfl, RingBuffer.holds_ofCapacity (by omega), counts_nil _⟩

theorem Windowed.reset {ctx : Penalties F} (h : ctx.Windowed lastN toks) :
    ctx.reset.Windowed lastN [] :=
  ⟨h.last_n, h.capacity, h.holds.clear, counts_nil lastN⟩

/-- A call of accept does not fail, and moves the window on by a token. -/
theorem Windowed.accept {ctx : Penalties F} (h : ctx.Windowed lastN toks) (token : Int) :
    ∃ ctx', ctx.accept token = some ctx' ∧ ctx'.Windowed lastN (toks ++ [token]) := by
  obtain ⟨prev, hpush, hcapacity, hholds⟩ := h.holds.pushBack token
  have hpos := h.holds.capacity_pos
  have hsz := h.holds.sz
  have hcounted := h.counts.push token
  rw [h.capacity] at hpos hsz hcapacity
  rw [accept_eq, if_neg (by rw [h.last_n]; omega), hpush, Option.map_some]
  by_cases hfull : lastN ≤ toks.length
  · -- the map counts the token that comes before the oldest one goes
    obtain ⟨old, hold, hwindow⟩ := window_concat_of_full hpos hfull token
    have hfront : ctx.prev.front = some old := by
      rw [h.holds.front (by omega), hsz, Nat.min_eq_right hfull, hold]
    rw [hwindow] at hcounted
    have hafter : Counts (ctx.countsAfter token) (window lastN (toks ++ [token])) := by
      simp only [countsAfter, hfront]
      rw [if_pos (by rw [h.last_n]; omega)]
      exact hcounted.evict
    rw [if_neg (fun hnone => by rw [hfront] at hnone; cases hnone.2)]
    exact ⟨_, rfl, h.last_n, hcapacity, hholds, hafter⟩
  · have hafter : ctx.countsAfter token = ctx.tokenCount.set token (ctx.count token + 1) := by
      rw [countsAfter]
      split
      case h_1 => rfl
      case h_2 => exact if_neg (by rw [h.last_n]; omega)
    rw [if_neg (by rw [h.last_n]; omega), hafter]
    refine ⟨_, rfl, h.last_n, hcapacity, hholds, ?_⟩
    rw [window_concat_of_short (by omega)]
    exact hcounted

/-- What is called between samplings. -/
inductive Update where
  | accept (token : Int)
  | reset
  deriving DecidableEq

def update (ctx : Penalties F) : Update → Option (Penalties F)
  | .accept token => ctx.accept token
  | .reset => some ctx.reset

/-- The tokens accepted since the last reset, after those of before. -/
def accepted (toks : List Int) : List Update → List Int
  | [] => toks
  | .accept token :: calls => accepted (toks ++ [token]) calls
  | .reset :: calls => accepted [] calls

theorem Windowed.run {ctx : Penalties F} (h : ctx.Windowed lastN toks) (calls : List Update) :
    ∃ ctx', run update ctx calls = some ctx' ∧ ctx'.Windowed lastN (accepted toks calls) := by
  induction calls generalizing ctx toks with
  | nil => exact ⟨ctx, rfl, h⟩
  | cons call calls ih =>
    cases call with
    | accept token =>
      obtain ⟨ctx', hctx', hwindowed⟩ := h.accept token
      rw [ActQuant.Lib.run, update, hctx', Option.bind_some]
      exact ih hwindowed
    | reset => exact ih h.reset

/-- The assertion of apply, for the tokens that are looked up. -/
def Asserted (ctx : Penalties F) (cur : Cands F) : Prop :=
  ∀ t ∈ cur.data, ∀ count, ctx.tokenCount.lookup t.id = some count →
    0 < count ∧ count ≤ ctx.penaltyLastN

theorem Windowed.asserted {ctx : Penalties F} (h : ctx.Windowed lastN toks) (cur : Cands F) :
    ctx.Asserted cur := by
  intro t _ count hcount
  have hle := List.count_le_length (a := t.id) (l := window lastN toks)
  have hlen := length_window lastN toks
  rw [h.counts t.id] at hcount
  split at hcount
  case isTrue => cases hcount
  case isFalse hne =>
    cases hcount
    rw [h.last_n]
    omega

/-- The penalty for each candidate that occurs in a list of tokens, with its count there. -/
def penalizeCounts [Floats F] (ctx : Penalties F) (toks : List Int) (t : TokenData F) :
    TokenData F :=
  if t.id ∈ toks then { t with logit := ctx.penalize (toks.count t.id) t.logit } else t

theorem Windowed.apply [Floats F] {ctx : Penalties F} (h : ctx.Windowed lastN toks)
    (hactive : ctx.Active) (cur : Cands F) :
    ctx.apply cur =
      { cur with
        data := cur.data.map (ctx.penalizeCounts (window lastN toks))
        sorted := false } := by
  rw [Penalties.apply, if_pos hactive]
  congr 1
  apply List.map_congr_left
  intro t _
  have hiff : t.id ∈ window lastN toks ↔ ¬ (window lastN toks).count t.id = 0 := by
    rw [← List.count_pos_iff]
    exact Nat.pos_iff_ne_zero
  rw [h.counts t.id, penalizeCounts]
  by_cases hzero : (window lastN toks).count t.id = 0
  · rw [if_pos hzero, if_neg fun hmem => hiff.1 hmem hzero]
  · rw [if_neg hzero, if_pos (hiff.2 hzero)]

/-- After every history of calls the map has the counts of the window, and what apply does to the
candidates follows from the window alone. -/
theorem tokenCount_of_calls [Floats F] {lastN : Int} (h : 0 < lastN)
    (penaltyRepeat penaltyFreq penaltyPresent : F) (calls : List Update) :
    ∃ ctx, ActQuant.Lib.run update (init lastN penaltyRepeat penaltyFreq penaltyPresent) calls =
        some ctx ∧
      (window lastN.toNat (accepted [] calls)).length =
        min lastN.toNat (accepted [] calls).length ∧
      Counts ctx.tokenCount (window lastN.toNat (accepted [] calls)) ∧
      ∀ cur : Cands F, ctx.Asserted cur ∧
        ctx.apply cur =
          if ctx.Active then
            { cur with
              data := cur.data.map (ctx.penalizeCounts (window lastN.toNat (accepted [] calls)))
              sorted := false }
          else cur := by
  obtain ⟨ctx, hrun, hwindowed⟩ :=
    (windowed_init h penaltyRepeat penaltyFreq penaltyPresent).run calls
  refine ⟨ctx, hrun, length_window _ _, hwindowed.counts, fun cur => ⟨hwindowed.asserted cur, ?_⟩⟩
  by_cases hactive : ctx.Active
  · rw [if_pos hactive]
    exact hwindowed.apply hactive cur
  · rw [if_neg hactive, Penalties.apply, if_neg hactive]

/-- A token that is evicted by its own acceptance, and one from before a reset. -/
theorem tokenCount_of_calls_evicted : ∃ ctx : Penalties Exact,
    ActQuant.Lib.run update (init 2 (some 2) (some 0) (some 0))
        [.accept 9, .reset, .accept 5, .accept 5, .accept 5] = some ctx ∧
      Counts ctx.tokenCount [5, 5] ∧ ctx.Asserted ⟨[⟨5, some 4, some 0⟩], -1, false⟩ := by
  have hpos : (0 : Int) < 2 := by decide
  obtain ⟨ctx, hrun, -, hcounts, hcur⟩ := tokenCount_of_calls (F := Exact) hpos (some 2) (some 0)
    (some 0) [.accept 9, .reset, .accept 5, .accept 5, .accept 5]
  exact ⟨ctx, hrun, hcounts, (hcur _).1⟩

end Penalties
end ActQuant.Sampling
