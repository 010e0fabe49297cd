import ActQuant.Lib.Dict
import Mathlib.Data.Fintype.Pi
import Mathlib.Data.List.GetD

namespace ActQuant.NgramCache
open ActQuant.Lib

/-! How often each token follows the tokens in front of it. -/

def tokenNull : Int := -1

/-- `common_ngram`: as many tokens as there may be, the missing ones null. -/
abbrev Ngram := Fin 4 → Int

/-- The constructor from a pointer into the tokens. -/
def ngramAt (inp : List Int) (start size : Nat) : Ngram :=
  fun i => if i.val < size then inp.getD (start + i) 0 else tokenNull

/-- `common_ngram_cache_part`. -/
abbrev Part := Hashmap Int Int

/-- `common_ngram_cache`. -/
abbrev Cache := Hashmap Ngram Part

/-- One occurrence of a token behind an n-gram. -/
def count (cache : Cache) (ngram : Ngram) (token : Int) : Cache :=
  match cache.find ngram with
  | none => cache.insert ngram (Hashmap.empty.insert token 1)
  | some part =>
    match part.find token with
    | none => cache.insert ngram (part.insert token 1)
    | some n => cache.insert ngram (part.insert token (n + 1))

/-- The loop of `common_ngram_cache_update` for one size. -/
def updateSize (inp : List Int) (nnew : Nat) (cache : Cache) (ngramSize : Nat) : Cache :=
  let iStart := max (inp.length - nnew) ngramSize
  (List.range' iStart (inp.length - iStart)).foldl
    (fun cache i => count cache (ngramAt inp (i - ngramSize) ngramSize) (inp.getD i 0)) cache

/-- `common_ngram_cache_update`. -/
def update (cache : Cache) (ngramMin ngramMax : Nat) (inp : List Int) (nnew : Nat) : Cache :=
  (List.range' ngramMin (ngramMax + 1 - ngramMin)).foldl (updateSize inp nnew) cache

namespace Cache

/-- What is stored under an n-gram and a token. -/
def entry (cache : Cache) (ngram : Ngram) (token : Int) : Option Int :=
  (cache.find ngram).bind fun part => part.find token

/-- The same n-grams with the same tokens and counts. -/
def Same (c c' : Cache) : Prop :=
  (∀ ngram, (c.find ngram).isSome = (c'.find ngram).isSome) ∧
    ∀ ngram token, entry c ngram token = entry c' ngram token

/-- No n-gram without a token, no token that did not occur. -/
structure Sound (c : Cache) : Prop where
  nonempty : ∀ ngram, (c.find ngram).isSome → ∃ token, entry c ngram token ≠ none
  positive : ∀ ngram token n, entry c ngram token = some n → 0 < n

theorem sound_empty : Sound (Hashmap.empty : Cache) where
  nonempty := by
    intro ngram h
    cases h
  positive := by
    intro ngram token n h
    cases h

end Cache

/-- The entry of something that occurred `n` times more. -/
def raised (old : Option Int) (n : Nat) : Option Int :=
  if n = 0 then old else some (old.getD 0 + n)

theorem raised_raised (old : Option Int) (m n : Nat) :
    raised (raised old m) n = raised old (m + n) := by
  rw [raised, raised, raised]
  by_cases hm : m = 0
  · rw [hm, if_pos rfl, Nat.zero_add]
  · by_cases hn : n = 0
    · rw [hn, if_pos rfl, Nat.add_zero]
    · rw [if_neg hm, if_neg hn, if_neg (by omega), Option.getD_some, Int.natCast_add, Int.add_assoc]

theorem raised_pos (hold : ∀ m, old = some m → 0 < m) (h : raised old k = some n) : 0 < n := by
  rw [raised] at h
  split at h
  case isTrue => exact hold n h
  case isFalse hk =>
    cases h
    cases old with
    | none =>
      rw [Option.getD_none]
      omega
    | some m =>
      have hm := hold m rfl
      rw [Option.getD_some]
      omega

theorem entry_insert (cache : Cache) (g g' : Ngram) (part : Part) (t : Int) :
    Cache.entry (cache.insert g part) g' t =
      if g' = g then part.find t else Cache.entry cache g' t := by
  rw [Cache.entry, Hashmap.find_insert]
  split
  case isTrue => rfl
  case isFalse => rfl

theorem entry_count (cache : Cache) (g g' : Ngram) (t t' : Int) :
    Cache.entry (count cache g t) g' t' =
      raised (Cache.entry cache g' t') (if (g, t) = (g', t') then 1 else 0) := by
  have hnew (part : Part) (n : Int) (hn : n = (part.find t).getD 0 + 1)
      (hpart : ∀ t', part.find t' = Cache.entry cache g t') :
      Cache.entry (cache.insert g (part.insert t n)) g' t' =
        raised (Cache.entry cache g' t') (if (g, t) = (g', t') then 1 else 0) := by
    rw [entry_insert, Hashmap.find_insert]
    by_cases hg : g' = g
    · subst hg
      rw [if_pos rfl, hpart]
      by_cases ht : t' = t
      · subst ht
        rw [if_pos rfl, if_pos rfl, raised, if_neg Nat.one_ne_zero, hn, hpart]
        rfl
      · rw [if_neg ht, if_neg (fun h => ht (congrArg Prod.snd h).symm), raised, if_pos rfl]
    · rw [if_neg hg, if_neg (fun h => hg (congrArg Prod.fst h).symm), raised, if_pos rfl]
  rw [count]
  cases hfind : cache.find g with
  | none =>
    refine hnew Hashmap.empty 1 rfl fun t' => ?_
    rw [Cache.entry, hfind]
    rfl
  | some part =>
    have hpart (t' : Int) : part.find t' = Cache.entry cache g t' := by
      rw [Cache.entry, hfind]
      rfl
    dsimp only
    cases ht : part.find t with
    | none => exact hnew part 1 (by rw [ht]; rfl) hpart
    | some n => exact hnew part (n + 1) (by rw [ht]; rfl) hpart

theorem find_count (cache : Cache) (g g' : Ngram) (t : Int) :
    ((count cache g t).find g').isSome = (decide (g' = g) || (cache.find g').isSome) := by
  have hinsert (part : Part) :
      ((cache.insert g part).find g').isSome = (decide (g' = g) || (cache.find g').isSome) := by
    rw [Hashmap.find_insert]
    by_cases hg : g' = g
    · rw [if_pos hg, decide_eq_true hg]
      rfl
    · rw [if_neg hg, decide_eq_false hg, Bool.false_or]
  rw [count]
  split
  · exact hinsert _
  · split
    · exact hinsert _
    · exact hinsert _

theorem sound_count (h : Cache.Sound cache) (g : Ngram) (t : Int) :
    Cache.Sound (count cache g t) where
  nonempty := by
    intro g' hg'
    by_cases hg : g' = g
    · subst hg
      refine ⟨t, ?_⟩
      rw [entry_count, if_pos rfl, raised, if_neg Nat.one_ne_zero]
      exact Option.some_ne_none _
    · rw [find_count, decide_eq_false hg, Bool.false_or] at hg'
      obtain ⟨t', ht'⟩ := h.nonempty g' hg'
      refine ⟨t', ?_⟩
      rwa [entry_count, if_neg (fun h => hg (congrArg Prod.fst h).symm), raised, if_pos rfl]
  positive := by
    intro g' t' n hn
    rw [entry_count] at hn
    exact raised_pos (fun m hm => h.positive g' t' m hm) hn

/-! A cache that is fed a sequence in pieces. -/

/-- What one size adds for the last `nnew` tokens. -/
def events (inp : List Int) (nnew ngramSize : Nat) : List (Ngram × Int) :=
  let iStart := max (inp.length - nnew) ngramSize
  (List.range' iStart (inp.length - iStart)).map
    fun i => (ngramAt inp (i - ngramSize) ngramSize, inp.getD i 0)

/-- The sizes of an update. -/
def sizes (ngramMin ngramMax : Nat) : List Nat := List.range' ngramMin (ngramMax + 1 - ngramMin)

theorem mem_sizes : n ∈ sizes ngramMin ngramMax ↔ ngramMin ≤ n ∧ n ≤ ngramMax := by
  rw [sizes, List.mem_range'_1]
  omega

theorem update_eq (cache : Cache) (ngramMin ngramMax : Nat) (inp : List Int) (nnew : Nat) :
    update cache ngramMin ngramMax inp nnew =
      ((sizes ngramMin ngramMax).flatMap (events inp nnew)).foldl (fun c e => count c e.1 e.2)
        cache := by
  rw [List.foldl_flatMap, update, sizes]
  congr 1
  funext cache size
  rw [updateSize, events, List.foldl_map]

theorem entry_foldl (es : List (Ngram × Int)) (cache : Cache) (g : Ngram) (t : Int) :
    Cache.entry (es.foldl (fun c e => count c e.1 e.2) cache) g t =
      raised (Cache.entry cache g t) (es.count (g, t)) := by
  induction es generalizing cache with
  | nil => rfl
  | cons e es ih =>
    obtain ⟨g', t'⟩ := e
    rw [List.foldl_cons, ih, entry_count, raised_raised, List.count_cons, Nat.add_comm]
    simp only [beq_iff_eq]

theorem sound_foldl (es : List (Ngram × Int)) (h : Cache.Sound cache) :
    Cache.Sound (es.foldl (fun c e => count c e.1 e.2) cache) := by
  induction es generalizing cache with
  | nil => exact h
  | cons e es ih => exact ih (sound_count h e.1 e.2)

theorem ngramAt_append {inp : List Int} (more : List Int) (h : start + size ≤ inp.length) :
    ngramAt (inp ++ more) start size = ngramAt inp start size := by
  funext i
  rw [ngramAt, ngramAt]
  split
  case isTrue hi => rw [List.getD_append _ _ _ _ (by omega)]
  case isFalse => rfl

/-- A token is counted with the piece it comes in. -/
theorem count_events_append (inp chunk : List Int) (size : Nat) (e : Ngram × Int) :
    (events (inp ++ chunk) (inp ++ chunk).length size).count e =
      (events inp inp.length size).count e +
        (events (inp ++ chunk) chunk.length size).count e := by
  have hlen : (inp ++ chunk).length = inp.length + chunk.length := List.length_append
  have hold : events inp inp.length size =
      (List.range' size (inp.length - size)).map
        fun i => (ngramAt (inp ++ chunk) (i - size) size, (inp ++ chunk).getD i 0) := by
    rw [events, Nat.sub_self, Nat.zero_max]
    refine List.map_congr_left fun i hi => ?_
    rw [List.mem_range'_1] at hi
    rw [ngramAt_append chunk (by omega), List.getD_append _ _ _ _ (by omega)]
  have hsplit : List.range' size (inp.length + chunk.length - size) =
      List.range' size (inp.length - size) ++
        List.range' (max inp.length size)
          (inp.length + chunk.length - max inp.length size) := by
    rcases Nat.le_total size inp.length with h | h
    · have hstart : inp.length = size + 1 * (inp.length - size) := by omega
      rw [Nat.max_eq_left h]
      nth_rewrite 3 [hstart]
      rw [List.range'_append]
      congr 1
      omega
    · rw [Nat.max_eq_right h, Nat.sub_eq_zero_of_le h]
      rfl
  rw [hold, ← List.count_append, events, events, hlen, Nat.sub_self, Nat.zero_max,
    Nat.add_sub_cancel, hsplit, List.map_append]

/-- The pieces are appended one after the other, each followed by an update. -/
def feed (ngramMin ngramMax : Nat) : List (List Int) → List Int → Cache → Cache
  | [], _, cache => cache
  | chunk :: chunks, inp, cache =>
    feed ngramMin ngramMax chunks (inp ++ chunk)
      (update cache ngramMin ngramMax (inp ++ chunk) chunk.length)

/-- All that is counted in a sequence. -/
def allEvents (ngramMin ngramMax : Nat) (inp : List Int) : List (Ngram × Int) :=
  (sizes ngramMin ngramMax).flatMap (events inp inp.length)

theorem entry_feed {inp : List Int} (chunks : List (List Int)) {cache : Cache}
    (h : ∀ g t, Cache.entry cache g t =
      raised none ((allEvents ngramMin ngramMax inp).count (g, t))) (g : Ngram) (t : Int) :
    Cache.entry (feed ngramMin ngramMax chunks inp cache) g t =
      raised none ((allEvents ngramMin ngramMax (inp ++ chunks.flatten)).count (g, t)) := by
  induction chunks generalizing inp cache with
  | nil => rw [feed, List.flatten_nil, List.append_nil, h]
  | cons chunk chunks ih =>
    rw [feed, List.flatten_cons, ← List.append_assoc]
    refine ih fun g t => ?_
    rw [update_eq, entry_foldl, h, raised_raised]
    congr 1
    rw [allEvents, allEvents, List.count_flatMap, List.count_flatMap, List.count_flatMap,
      ← List.sum_map_add]
    congr 1
    refine List.map_congr_left fun size _ => ?_
    exact (count_events_append inp chunk size (g, t)).symm

theorem sound_feed (chunks : List (List Int)) (inp : List Int) (h : Cache.Sound cache) :
    Cache.Sound (feed ngramMin ngramMax chunks inp cache) := by
  induction chunks generalizing inp cache with
  | nil => exact h
  | cons chunk chunks ih =>
    rw [feed, update_eq]
    exact ih _ (sound_foldl _ h)

/-! ### Occurrences -/

/-- The n-gram of some tokens. -/
def ngramOf (w : List Int) : Ngram := ngramAt w 0 w.length

/-- How often `w` is followed by `t`. -/
def followed (w : List Int) (t : Int) (inp : List Int) : Nat :=
  (List.range inp.length).countP fun j => (inp.drop j).take (w.length + 1) = w ++ [t]

theorem take_drop_eq_iff {inp : List Int} (h : start + w.length ≤ inp.length) :
    (inp.drop start).take w.length = w ↔ ∀ i < w.length, inp.getD (start + i) 0 = w.getD i 0 := by
  have hlen : ((inp.drop start).take w.length).length = w.length := by
    rw [List.length_take, List.length_drop]
    omega
  constructor
  · intro heq i hi
    rw [← congrArg (fun l => l.getD i 0) heq]
    simp only [List.getD_eq_getElem?_getD, List.getElem?_take_of_lt hi, List.getElem?_drop]
  · intro heq
    refine List.ext_getElem? fun i => ?_
    by_cases hi : i < w.length
    · have hget := heq i hi
      rw [List.getD_eq_getElem _ _ (by omega), List.getD_eq_getElem _ _ hi] at hget
      rw [List.getElem?_take_of_lt hi, List.getElem?_drop, List.getElem?_eq_getElem hi,
        List.getElem?_eq_getElem (by omega), hget]
    · rw [List.getElem?_eq_none (by omega), List.getElem?_eq_none (by omega)]

/-- Tokens are told from the null token, so an n-gram has one size. -/
theorem ngramAt_eq_iff {inp w : List Int} (hinp : ∀ x ∈ inp, 0 ≤ x) (hw : ∀ x ∈ w, 0 ≤ x)
    (hsize : size ≤ 4) (hlen : w.length ≤ 4) (h : start + size ≤ inp.length) :
    ngramAt inp start size = ngramOf w ↔
      size = w.length ∧ (inp.drop start).take w.length = w := by
  have hget {l : List Int} (hl : ∀ x ∈ l, 0 ≤ x) (i : Nat) : l.getD i 0 ≠ tokenNull := by
    have hnonneg : 0 ≤ l.getD i 0 := by
      by_cases hi : i < l.length
      · rw [List.getD_eq_getElem _ _ hi]
        exact hl _ (List.getElem_mem hi)
      · rw [List.getD_eq_default _ _ (by omega)]
    rw [tokenNull]
    omega
  constructor
  · intro heq
    have hat (i : Nat) (hi : i < 4) : (if i < size then inp.getD (start + i) 0 else tokenNull) =
        if i < w.length then w.getD i 0 else tokenNull := by
      have hi' := congrFun heq ⟨i, hi⟩
      rwa [ngramOf, ngramAt, ngramAt, Nat.zero_add] at hi'
    have hsame : size = w.length := by
      rcases Nat.lt_trichotomy size w.length with hlt | heq | hlt
      · have hi := hat size (by omega)
        rw [if_neg (Nat.lt_irrefl _), if_pos hlt] at hi
        exact absurd hi.symm (hget hw _)
      · exact heq
      · have hi := hat w.length (by omega)
        rw [if_pos hlt, if_neg (Nat.lt_irrefl _)] at hi
        exact absurd hi (hget hinp _)
    refine ⟨hsame, ?_⟩
    rw [take_drop_eq_iff (by omega)]
    intro i hi
    have hi' := hat i (by omega)
    rwa [if_pos (by omega), if_pos hi] at hi'
  · rintro ⟨rfl, heq⟩
    rw [take_drop_eq_iff h] at heq
    funext i
    rw [ngramOf, ngramAt, ngramAt, Nat.zero_add]
    split
    case isTrue hi => exact heq i hi
    case isFalse => rfl

theorem count_events {inp w : List Int} (hinp : ∀ x ∈ inp, 0 ≤ x) (hw : ∀ x ∈ w, 0 ≤ x)
    (hsize : size ≤ 4) (hlen : w.length ≤ 4) (t : Int) :
    (events inp inp.length size).count (ngramOf w, t) =
      if size = w.length then followed w t inp else 0 := by
  have hevents : events inp inp.length size = (List.range (inp.length - size)).map
      fun j => (ngramAt inp j size, inp.getD (size + j) 0) := by
    rw [events, Nat.sub_self, Nat.zero_max, List.range'_eq_map_range, List.map_map]
    refine List.map_congr_left fun j _ => ?_
    rw [Function.comp, Nat.add_sub_cancel_left]
  have hat (j : Nat) (hj : j < inp.length - size) :
      ((ngramAt inp j size, inp.getD (size + j) 0) = (ngramOf w, t)) ↔
        size = w.length ∧ (inp.drop j).take (w.length + 1) = w ++ [t] := by
    rw [Prod.mk.injEq, ngramAt_eq_iff hinp hw hsize hlen (by omega), and_assoc]
    refine and_congr_right fun hs => ?_
    have hnext : (inp.drop j).take (w.length + 1) =
        (inp.drop j).take w.length ++ [inp.getD (size + j) 0] := by
      rw [List.take_add_one, List.getElem?_drop, List.getElem?_eq_getElem (by omega),
        List.getD_eq_getElem _ _ (by omega)]
      simp only [hs, Nat.add_comm, Option.toList_some]
    rw [hnext]
    constructor
    · rintro ⟨hfront, hlast⟩
      rw [hfront, hlast]
    · intro heq
      have hparts := List.append_inj' heq rfl
      exact ⟨hparts.1, List.singleton_inj.1 hparts.2⟩
  rw [hevents, List.count, List.countP_map]
  by_cases hs : size = w.length
  · rw [if_pos hs, followed]
    have hrest : (List.range inp.length).countP
        (fun j => (inp.drop j).take (w.length + 1) = w ++ [t]) =
        (List.range (inp.length - size)).countP
          fun j => (inp.drop j).take (w.length + 1) = w ++ [t] := by
      have hsplit : inp.length = (inp.length - size) + (inp.length - (inp.length - size)) := by
        omega
      conv_lhs => rw [hsplit, List.range_add, List.countP_append]
      rw [Nat.add_eq_left, List.countP_eq_zero]
      intro j hj hmatch
      obtain ⟨i, hi, rfl⟩ := List.mem_map.1 hj
      rw [List.mem_range] at hi
      have hlength := congrArg List.length (of_decide_eq_true hmatch)
      rw [List.length_take, List.length_drop, List.length_append, List.length_singleton] at hlength
      omega
    rw [hrest]
    refine List.countP_congr fun j hj => ?_
    rw [List.mem_range] at hj
    rw [Function.comp, beq_iff_eq, hat j hj, decide_eq_true_eq, and_iff_right hs]
  · rw [if_neg hs, List.countP_eq_zero]
    intro j hj hmatch
    rw [List.mem_range] at hj
    rw [Function.comp, beq_iff_eq, hat j hj] at hmatch
    exact hs hmatch.1

theorem count_allEvents {inp w : List Int} (hinp : ∀ x ∈ inp, 0 ≤ x) (hw : ∀ x ∈ w, 0 ≤ x)
    (hmax : ngramMax ≤ 4) (hlo : ngramMin ≤ w.length) (hhi : w.length ≤ ngramMax) (t : Int) :
    (allEvents ngramMin ngramMax inp).count (ngramOf w, t) = followed w t inp := by
  have hmem : w.length ∈ sizes ngramMin ngramMax := mem_sizes.2 ⟨hlo, hhi⟩
  have hnodup : (sizes ngramMin ngramMax).Nodup := List.nodup_range'
  rw [allEvents, List.count_flatMap]
  rw [List.sum_map_eq_nsmul_single w.length, List.count_eq_one_of_mem hnodup hmem, one_nsmul,
    Function.comp, count_events hinp hw (hhi.trans hmax) (hhi.trans hmax), if_pos rfl]
  intro size hne hsize
  rw [Function.comp, count_events hinp hw ((mem_sizes.1 hsize).2.trans hmax) (hhi.trans hmax),
    if_neg hne]

/-- However a sequence is cut into pieces, the cache has the n-grams of the sizes asked for, and
each token behind one of them as often as it stands there. -/
theorem feed_counts {seq : List Int} (hseq : ∀ x ∈ seq, 0 ≤ x) (hmax : ngramMax ≤ 4)
    (chunks : List (List Int)) (hchunks : chunks.flatten = seq) :
    (∀ w : List Int, (∀ x ∈ w, 0 ≤ x) → ngramMin ≤ w.length → w.length ≤ ngramMax → ∀ t,
      Cache.entry (feed ngramMin ngramMax chunks [] Hashmap.empty) (ngramOf w) t =
        if followed w t seq = 0 then none else some (followed w t seq : Int)) ∧
    ∀ g, ((feed ngramMin ngramMax chunks [] Hashmap.empty).find g).isSome →
      ∃ w t, ngramMin ≤ w.length ∧ w.length ≤ ngramMax ∧ (∀ x ∈ w, 0 ≤ x) ∧ g = ngramOf w ∧
        0 < followed w t seq := by
  have hall (inp : List Int) (hinp : inp = []) (g : Ngram) (t : Int) :
      (allEvents ngramMin ngramMax inp).count (g, t) = 0 := by
    rw [List.count_eq_zero, allEvents, List.mem_flatMap]
    rintro ⟨size, _, he⟩
    simp [hinp, events] at he
  have hentry (g : Ngram) (t : Int) :
      Cache.entry (feed ngramMin ngramMax chunks [] Hashmap.empty) g t =
        raised none ((allEvents ngramMin ngramMax seq).count (g, t)) := by
    have hstart (g : Ngram) (t : Int) : Cache.entry Hashmap.empty g t =
        raised none ((allEvents ngramMin ngramMax []).count (g, t)) := by
      rw [hall [] rfl]
      rfl
    have hfeed := entry_feed chunks hstart g t
    rwa [List.nil_append, hchunks] at hfeed
  constructor
  · intro w hw hlo hhi t
    rw [hentry, count_allEvents hseq hw hmax hlo hhi, raised, Option.getD_none, Int.zero_add]
  · intro g hg
    have hsound : Cache.Sound (feed ngramMin ngramMax chunks [] Hashmap.empty) :=
      sound_feed chunks [] Cache.sound_empty
    obtain ⟨t, ht⟩ := hsound.nonempty g hg
    rw [hentry, raised] at ht
    have hcount : (allEvents ngramMin ngramMax seq).count (g, t) ≠ 0 := by
      intro h
      rw [if_pos h] at ht
      exact ht rfl
    have hmem : (g, t) ∈ allEvents ngramMin ngramMax seq :=
      List.count_pos_iff.1 (Nat.pos_of_ne_zero hcount)
    obtain ⟨size, hsize, he⟩ := List.mem_flatMap.1 hmem
    obtain ⟨hlo, hhi⟩ := mem_sizes.1 hsize
    rw [events, List.mem_map] at he
    obtain ⟨i, hi, heq⟩ := he
    rw [Nat.sub_self, Nat.zero_max, List.mem_range'_1] at hi
    obtain ⟨hg', _⟩ := Prod.mk.inj heq
    have hwlen : ((seq.drop (i - size)).take size).length = size := by
      rw [List.length_take, List.length_drop]
      omega
    have hw : ∀ x ∈ (seq.drop (i - size)).take size, 0 ≤ x :=
      fun x hx => hseq x (List.mem_of_mem_drop (List.mem_of_mem_take hx))
    have hgw : g = ngramOf ((seq.drop (i - size)).take size) := by
      rw [← hg', ngramAt_eq_iff hseq hw (hhi.trans hmax) (hwlen.le.trans (hhi.trans hmax)) (by omega),
        hwlen]
      exact ⟨rfl, rfl⟩
    refine ⟨_, t, hwlen.symm ▸ hlo, hwlen.symm ▸ hhi, hw, hgw, ?_⟩
    rw [hgw, count_allEvents hseq hw hmax (hwlen.symm ▸ hlo) (hwlen.symm ▸ hhi)] at hcount
    exact Nat.pos_of_ne_zero hcount

/-! Caches that are merged. -/

/-- The loop of `common_ngram_cache_merge` over the tokens of one n-gram; `none` is the
assertion. -/
def mergePart (merged part : Part) : Option Part :=
  part.entries.foldlM (fun (m : Part) (e : Int × Int) =>
    if 0 < e.2 then
      some (m.insert e.1 (match m.find e.1 with | none => e.2 | some n => n + e.2))
    else none) merged

/-- `common_ngram_cache_merge`. -/
def merge (target add : Cache) : Option Cache :=
  add.entries.foldlM (fun (c : Cache) (e : Ngram × Part) =>
    match c.find e.1 with
    | none => some (c.insert e.1 e.2)
    | some part => (mergePart part e.2).map fun merged => c.insert e.1 merged) target

theorem foldlM_eq_foldl {f : σ → α → Option σ} {g : σ → α → σ} {l : List α}
    (h : ∀ x ∈ l, ∀ s, f s x = some (g s x)) (s : σ) : l.foldlM f s = some (l.foldl g s) := by
  induction l generalizing s with
  | nil => rfl
  | cons x l ih =>
    rw [List.foldlM_cons, h x List.mem_cons_self]
    exact ih (fun y hy => h y (List.mem_cons_of_mem _ hy)) _

theorem mergePart_eq (merged : Part) {part : Part} (h : ∀ e ∈ part.entries, 0 < e.2) :
    mergePart merged part = some (Hashmap.absorb (· + ·) merged part.entries) := by
  refine foldlM_eq_foldl (fun e he m => ?_) merged
  rw [if_pos (h e he)]
  cases m.find e.1 <;> rfl

/-- The tokens of two parts with their counts added. -/
def combine (merged part : Part) : Part := Hashmap.absorb (· + ·) merged part.entries

theorem find_combine (merged part : Part) (t : Int) :
    (combine merged part).find t = Option.merge (· + ·) (merged.find t) (part.find t) :=
  Hashmap.find_absorb _ merged part.nodup t

theorem Cache.Sound.part_positive {c : Cache} (h : c.Sound) (hp : (g, part) ∈ c.entries) :
    ∀ e ∈ part.entries, 0 < e.2 := by
  intro e he
  refine h.positive g e.1 e.2 ?_
  rw [entry, Hashmap.find_eq_some.2 hp]
  exact Hashmap.find_eq_some.2 he

theorem merge_eq (target : Cache) {add : Cache} (h : add.Sound) :
    merge target add = some (Hashmap.absorb combine target add.entries) := by
  refine foldlM_eq_foldl (fun e he c => ?_) target
  cases c.find e.1 with
  | none => rfl
  | some part =>
    dsimp only
    rw [mergePart_eq part (h.part_positive he)]
    rfl

/-- The n-grams and the entries of a merged cache. -/
theorem merge_entries {target add : Cache} (h : add.Sound) (hm : merge target add = some m) :
    (∀ g, (m.find g).isSome = ((target.find g).isSome || (add.find g).isSome)) ∧
      ∀ g t, m.entry g t = Option.merge (· + ·) (target.entry g t) (add.entry g t) := by
  rw [merge_eq target h] at hm
  cases hm
  have hfind (g : Ngram) : (Hashmap.absorb combine target add.entries).find g =
      Option.merge combine (target.find g) (add.find g) :=
    Hashmap.find_absorb combine target add.nodup g
  constructor
  · intro g
    rw [hfind]
    cases target.find g <;> cases add.find g <;> rfl
  · intro g t
    rw [Cache.entry, Cache.entry, Cache.entry, hfind]
    cases target.find g with
    | none =>
      cases add.find g with
      | none => rfl
      | some p' =>
        change p'.find t = Option.merge _ none (p'.find t)
        cases p'.find t <;> rfl
    | some p =>
      cases add.find g with
      | none =>
        change p.find t = Option.merge _ (p.find t) none
        cases p.find t <;> rfl
      | some p' => exact find_combine p p' t

theorem merge_sound {target add : Cache} (ht : target.Sound) (h : add.Sound)
    (hm : merge target add = some m) : m.Sound := by
  obtain ⟨hkeys, hentries⟩ := merge_entries h hm
  constructor
  · intro g hg
    rw [hkeys, Bool.or_eq_true] at hg
    rcases hg with hg | hg
    · obtain ⟨t, hne⟩ := ht.nonempty g hg
      refine ⟨t, ?_⟩
      rw [hentries]
      intro hnone
      exact hne (Option.merge_eq_none_iff.1 hnone).1
    · obtain ⟨t, hne⟩ := h.nonempty g hg
      refine ⟨t, ?_⟩
      rw [hentries]
      intro hnone
      exact hne (Option.merge_eq_none_iff.1 hnone).2
  · intro g t n hn
    rw [hentries] at hn
    cases htarget : target.entry g t with
    | none =>
      cases hadd : add.entry g t with
      | none =>
        rw [htarget, hadd] at hn
        cases hn
      | some k =>
        rw [htarget, hadd] at hn
        cases hn
        exact h.positive g t _ hadd
    | some k =>
      have hk := ht.positive g t k htarget
      cases hadd : add.entry g t with
      | none =>
        rw [htarget, hadd] at hn
        cases hn
        exact hk
      | some l =>
        have hl := h.positive g t l hadd
        rw [htarget, hadd] at hn
        cases hn
        exact Int.add_pos hk hl

/-- Merging adds the counts, in whatever order the n-grams and the tokens stand, and neither the
order of two caches nor the grouping of three matters. -/
theorem merge_laws {a b c : Cache} (ha : a.Sound) (hb : b.Sound) (hc : c.Sound) :
    (∃ ab, merge a b = some ab ∧ ab.Sound ∧
      (∀ g t, (ab.entry g t).getD 0 = (a.entry g t).getD 0 + (b.entry g t).getD 0) ∧
      ∀ g, (ab.find g).isSome = ((a.find g).isSome || (b.find g).isSome)) ∧
    (∃ ab ba, merge a b = some ab ∧ merge b a = some ba ∧ ab.Same ba) ∧
    ∃ ab bc left right, merge a b = some ab ∧ merge b c = some bc ∧ merge ab c = some left ∧
      merge a bc = some right ∧ left.Same right := by
  have hab := merge_eq a hb
  have hba := merge_eq b ha
  have hbc := merge_eq b hc
  have habSound := merge_sound ha hb hab
  have hbcSound := merge_sound hb hc hbc
  have hleft := merge_eq (Hashmap.absorb combine a b.entries) hc
  have hright := merge_eq a hbcSound
  obtain ⟨kab, eab⟩ := merge_entries hb hab
  obtain ⟨kba, eba⟩ := merge_entries ha hba
  obtain ⟨kbc, ebc⟩ := merge_entries hc hbc
  obtain ⟨kleft, eleft⟩ := merge_entries hc hleft
  obtain ⟨kright, eright⟩ := merge_entries hbcSound hright
  refine ⟨⟨_, hab, habSound, fun g t => ?_, kab⟩, ⟨_, _, hab, hba, fun g => ?_, fun g t => ?_⟩,
    _, _, _, _, hab, hbc, hleft, hright, fun g => ?_, fun g t => ?_⟩
  · rw [eab]
    cases a.entry g t <;> cases b.entry g t <;> simp [Option.merge]
  · rw [kab, kba, Bool.or_comm]
  · rw [eab, eba]
    cases a.entry g t <;> cases b.entry g t <;> simp [Option.merge, Int.add_comm]
  · rw [kleft, kright, kab, kbc, Bool.or_assoc]
  · rw [eleft, eright, eab, ebc]
    cases a.entry g t <;> cases b.entry g t <;> cases c.entry g t <;>
      simp [Option.merge, Int.add_assoc]

end ActQuant.NgramCache
