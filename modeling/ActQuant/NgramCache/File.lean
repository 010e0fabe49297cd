import ActQuant.NgramCache.Cache
import ActQuant.Lib.Bytes
import Mathlib.Data.Int.Interval
import Mathlib.Tactic.FinCases

namespace ActQuant.NgramCache
open ActQuant.Lib

/-! Caches in files. -/

/-- The bytes of an `int32_t`, which holds a number modulo 2^32. -/
def writeInt32 (x : Int) : List UInt8 := leBytes 4 (x % 4294967296).toNat

/-- The number in the lower or the upper half of what four bytes can say. -/
def int32Of (bs : List UInt8) : Int :=
  if ofLe bs < 2147483648 then ofLe bs else (ofLe bs : Int) - 4294967296

def Int32 (x : Int) : Prop := -2147483648 ≤ x ∧ x < 2147483648

def readInt32 (bs : List UInt8) : Option (Int × List UInt8) :=
  if bs.length < 4 then none else some (int32Of (bs.take 4), bs.drop 4)

@[simp] theorem length_writeInt32 (x : Int) : (writeInt32 x).length = 4 := length_leBytes 4 _

theorem int32Of_writeInt32 (h : Int32 x) : int32Of (writeInt32 x) = x := by
  obtain ⟨hlo, hhi⟩ := h
  rw [int32Of, writeInt32, ofLe_leBytes (by omega)]
  split
  case isTrue => omega
  case isFalse => omega

theorem readInt32_writeInt32 (h : Int32 x) (rest : List UInt8) :
    readInt32 (writeInt32 x ++ rest) = some (x, rest) := by
  have hlen := length_writeInt32 x
  rw [readInt32, if_neg (by rw [List.length_append]; omega), List.take_left' hlen,
    List.drop_left' hlen, int32Of_writeInt32 h]

def writeNgram (ngram : Ngram) : List UInt8 :=
  writeInt32 (ngram 0) ++ writeInt32 (ngram 1) ++ writeInt32 (ngram 2) ++ writeInt32 (ngram 3)

def ngramFrom (bs : List UInt8) : Ngram := fun i => int32Of ((bs.drop (4 * i.val)).take 4)

/-- The inner loop of `common_ngram_cache_save`; `none` is an assertion. -/
def saveCounts : List (Int × Int) → Option (List UInt8)
  | [] => some []
  | (token, count) :: items =>
    if 0 < count then
      (saveCounts items).map fun bs => writeInt32 token ++ writeInt32 count ++ bs
    else none

/-- The number of tokens as the `int32_t` it is stored in. -/
def ntokensOf (tokenCounts : Part) : Int := int32Of (writeInt32 tokenCounts.entries.length)

def saveItems : List (Ngram × Part) → Option (List UInt8)
  | [] => some []
  | (ngram, tokenCounts) :: items =>
    if 0 < ntokensOf tokenCounts then do
      let counts ← saveCounts tokenCounts.entries
      let bs ← saveItems items
      return writeNgram ngram ++ writeInt32 (ntokensOf tokenCounts) ++ counts ++ bs
    else none

/-- `common_ngram_cache_save`. -/
def save (ngramCache : Cache) : Option (List UInt8) := saveItems ngramCache.entries

/-- The inner loop of `common_ngram_cache_load`. -/
def loadCounts : Nat → Part → List UInt8 → Option (Part × List UInt8)
  | 0, tokenCounts, bs => some (tokenCounts, bs)
  | n + 1, tokenCounts, bs => do
    let (token, bs) ← readInt32 bs
    let (count, bs) ← readInt32 bs
    if 0 < count then loadCounts n (tokenCounts.emplace token count) bs else none

/-- The outer loop; each turn reads an n-gram, so there are fewer turns than bytes. -/
def loadItems : Nat → Cache → List UInt8 → Option Cache
  | 0, ngramCache, _ => some ngramCache
  | fuel + 1, ngramCache, bs =>
    if bs.length < 16 then some ngramCache
    else do
      let (ntokens, rest) ← readInt32 (bs.drop 16)
      if 0 < ntokens then
        let (tokenCounts, rest) ← loadCounts ntokens.toNat Hashmap.empty rest
        loadItems fuel (ngramCache.emplace (ngramFrom (bs.take 16)) tokenCounts) rest
      else none

/-- `common_ngram_cache_load`. -/
def load (bs : List UInt8) : Option Cache := loadItems (bs.length + 1) Hashmap.empty bs

/-- The values of a cache are of the types the source gives them. -/
structure Cache.Typed (c : Cache) : Prop where
  ngram : ∀ e ∈ c.entries, ∀ i, Int32 (e.1 i)
  token : ∀ e ∈ c.entries, ∀ e' ∈ e.2.entries, Int32 e'.1
  count : ∀ e ∈ c.entries, ∀ e' ∈ e.2.entries, Int32 e'.2

theorem ngramFrom_writeNgram (h : ∀ i, Int32 (ngram i)) : ngramFrom (writeNgram ngram) = ngram := by
  funext i
  rw [ngramFrom, writeNgram]
  fin_cases i <;>
    simp [List.drop_append, List.take_of_length_le, List.drop_of_length_le,
      int32Of_writeInt32 (h _)]

theorem loadCounts_saveCounts {es : List (Int × Int)} (ht : ∀ e ∈ es, Int32 e.1)
    (hc : ∀ e ∈ es, Int32 e.2) (hs : saveCounts es = some bs) (part : Part) (rest : List UInt8) :
    loadCounts es.length part (bs ++ rest) =
      some (es.foldl (fun m e => m.emplace e.1 e.2) part, rest) := by
  induction es generalizing bs part with
  | nil =>
    cases hs
    rfl
  | cons e es ih =>
    obtain ⟨token, count⟩ := e
    rw [saveCounts] at hs
    split at hs
    case isFalse => cases hs
    case isTrue hpos =>
      rw [Option.map_eq_some_iff] at hs
      obtain ⟨bs, hbs, rfl⟩ := hs
      rw [List.length_cons, loadCounts, List.append_assoc, List.append_assoc,
        readInt32_writeInt32 (ht _ List.mem_cons_self)]
      simp only [Option.bind_eq_bind, Option.bind_some]
      rw [readInt32_writeInt32 (hc _ List.mem_cons_self), Option.bind_some]
      dsimp only
      rw [if_pos hpos, List.foldl_cons]
      exact ih (fun e he => ht e (List.mem_cons_of_mem _ he))
        (fun e he => hc e (List.mem_cons_of_mem _ he)) hbs _

/-- The entries of an n-gram as they come back from a file. -/
def reloaded (part : Part) : Part :=
  part.entries.foldl (fun m e => m.emplace e.1 e.2) Hashmap.empty

theorem find_reloaded (part : Part) (t : Int) : (reloaded part).find t = part.find t := by
  rw [reloaded, Hashmap.find_foldl_emplace, Hashmap.find_empty, Option.none_or]
  rfl

theorem length_writeNgram (ngram : Ngram) : (writeNgram ngram).length = 16 := by
  simp only [writeNgram, List.length_append, length_writeInt32]

theorem int32_int32Of {bs : List UInt8} (h : bs.length = 4) : Int32 (int32Of bs) := by
  have hlt := ofLe_lt bs
  rw [h] at hlt
  rw [Int32, int32Of]
  split
  case isTrue => omega
  case isFalse => omega

/-- A part has no more tokens than there are `int32_t`. -/
theorem length_entries_le {part : Part} (h : ∀ e ∈ part.entries, Int32 e.1) :
    part.entries.length ≤ 4294967296 := by
  have hsub : (part.entries.map Prod.fst).toFinset ⊆ Finset.Ico (-2147483648 : Int) 2147483648 := by
    intro t ht
    rw [List.mem_toFinset, List.mem_map] at ht
    obtain ⟨e, he, rfl⟩ := ht
    exact Finset.mem_Ico.2 (h e he)
  have hcard := Finset.card_le_card hsub
  rwa [List.toFinset_card_of_nodup part.nodup, List.length_map, Int.card_Ico] at hcard

/-- Where the number of tokens passes the assertion, it is what was stored. -/
theorem ntokensOf_eq {part : Part} (h : ∀ e ∈ part.entries, Int32 e.1)
    (hpos : 0 < ntokensOf part) : ntokensOf part = part.entries.length := by
  have hle := length_entries_le h
  have hmod : ((part.entries.length : Int) % 4294967296).toNat < 256 ^ 4 := by omega
  rw [ntokensOf, int32Of, writeInt32, ofLe_leBytes hmod] at hpos ⊢
  split
  case isTrue hsmall =>
    rw [if_pos hsmall] at hpos
    omega
  case isFalse hbig =>
    rw [if_neg hbig] at hpos
    omega

theorem loadItems_saveItems {es : List (Ngram × Part)} (hngram : ∀ e ∈ es, ∀ i, Int32 (e.1 i))
    (htoken : ∀ e ∈ es, ∀ e' ∈ e.2.entries, Int32 e'.1)
    (hcount : ∀ e ∈ es, ∀ e' ∈ e.2.entries, Int32 e'.2) (hs : saveItems es = some bs)
    (hfuel : es.length < fuel) (cache : Cache) :
    loadItems fuel cache bs =
      some ((es.map fun e => (e.1, reloaded e.2)).foldl (fun m e => m.emplace e.1 e.2) cache) := by
  induction es generalizing bs fuel cache with
  | nil =>
    cases hs
    cases fuel with
    | zero => rfl
    | succ fuel => rfl
  | cons e es ih =>
    obtain ⟨ngram, part⟩ := e
    obtain ⟨fuel, rfl⟩ : ∃ k, fuel = k + 1 := ⟨fuel - 1, by omega⟩
    rw [saveItems] at hs
    split at hs
    case isFalse => cases hs
    case isTrue hpos =>
      obtain ⟨counts, hcounts, hs⟩ := Option.bind_eq_some_iff.1 hs
      obtain ⟨bs, hbs, hs⟩ := Option.bind_eq_some_iff.1 hs
      cases hs
      have hlen := length_writeNgram ngram
      have htok := htoken _ List.mem_cons_self
      have hn : ntokensOf part = part.entries.length := ntokensOf_eq htok hpos
      have hint : Int32 (ntokensOf part) := int32_int32Of (length_writeInt32 _)
      rw [List.append_assoc, List.append_assoc, loadItems, List.take_left' hlen,
        List.drop_left' hlen, if_neg (by rw [List.length_append]; omega),
        readInt32_writeInt32 hint, ngramFrom_writeNgram (hngram _ List.mem_cons_self)]
      simp only [Option.bind_eq_bind, Option.bind_some]
      rw [if_pos hpos, hn, Int.toNat_natCast,
        loadCounts_saveCounts htok (hcount _ List.mem_cons_self) hcounts, Option.bind_some]
      exact ih (fun e he => hngram e (List.mem_cons_of_mem _ he))
        (fun e he => htoken e (List.mem_cons_of_mem _ he))
        (fun e he => hcount e (List.mem_cons_of_mem _ he)) hbs (Nat.lt_of_succ_lt_succ hfuel) _

theorem length_saveItems {es : List (Ngram × Part)} (h : saveItems es = some bs) :
    es.length ≤ bs.length := by
  induction es generalizing bs with
  | nil => exact Nat.zero_le _
  | cons e es ih =>
    rw [saveItems] at h
    split at h
    case isFalse => cases h
    case isTrue =>
      obtain ⟨counts, _, h⟩ := Option.bind_eq_some_iff.1 h
      obtain ⟨bs, hbs, h⟩ := Option.bind_eq_some_iff.1 h
      cases h
      have hrest := ih hbs
      simp only [List.length_append, List.length_cons, length_writeNgram]
      omega

theorem lookup_map (f : β → γ) (es : List (Ngram × β)) (g : Ngram) :
    (es.map fun e => (e.1, f e.2)).lookup g = (es.lookup g).map f := by
  induction es with
  | nil => rfl
  | cons e es ih =>
    rw [List.map_cons, List.lookup_cons, List.lookup_cons, ih]
    cases g == e.1 <;> rfl

/-- What was saved is loaded, in some order. -/
theorem load_save {c : Cache} (h : c.Typed) (hs : save c = some bs) :
    ∃ c', load bs = some c' ∧ c'.Same c := by
  refine ⟨_, loadItems_saveItems h.ngram h.token h.count hs
    (Nat.lt_succ_of_le (length_saveItems hs)) _, ?_⟩
  have hfind (g : Ngram) : ((c.entries.map fun e => (e.1, reloaded e.2)).foldl
      (fun m e => m.emplace e.1 e.2) (Hashmap.empty : Cache)).find g =
        (c.find g).map reloaded := by
    rw [Hashmap.find_foldl_emplace, lookup_map, Hashmap.find_empty, Option.none_or]
    rfl
  constructor
  · intro g
    rw [hfind, Option.isSome_map]
  · intro g t
    rw [Cache.entry, Cache.entry, hfind]
    cases c.find g with
    | none => rfl
    | some part => exact find_reloaded part t

theorem saveCounts_isSome {es : List (Int × Int)} (h : ∀ e ∈ es, 0 < e.2) :
    ∃ bs, saveCounts es = some bs := by
  induction es with
  | nil => exact ⟨[], rfl⟩
  | cons e es ih =>
    obtain ⟨bs, hbs⟩ := ih fun e he => h e (List.mem_cons_of_mem _ he)
    exact ⟨_, by rw [saveCounts, if_pos (h e List.mem_cons_self), hbs]; rfl⟩

/-- No assertion stands in the way of a cache whose parts can be counted. -/
theorem save_isSome {c : Cache} (h : c.Sound)
    (hsize : ∀ e ∈ c.entries, e.2.entries.length < 2147483648) : ∃ bs, save c = some bs := by
  have hitem : ∀ e ∈ c.entries, 0 < ntokensOf e.2 ∧ ∀ e' ∈ e.2.entries, 0 < e'.2 := by
    intro e he
    refine ⟨?_, h.part_positive he⟩
    have hfind : c.find e.1 = some e.2 := Hashmap.find_eq_some.2 he
    obtain ⟨t, ht⟩ := h.nonempty e.1 (by rw [hfind]; rfl)
    have hne : e.2.entries ≠ [] := by
      intro hnil
      rw [Cache.entry, hfind, Option.bind_some, Hashmap.find, hnil] at ht
      exact ht rfl
    have hlen := List.length_pos_iff.2 hne
    have hlt := hsize e he
    rw [ntokensOf, int32Of_writeInt32 ⟨by omega, by omega⟩]
    omega
  rw [save]
  generalize c.entries = es at hitem
  induction es with
  | nil => exact ⟨[], rfl⟩
  | cons e es ih =>
    obtain ⟨hn, hcounts⟩ := hitem e List.mem_cons_self
    obtain ⟨counts, hc⟩ := saveCounts_isSome hcounts
    obtain ⟨bs, hbs⟩ := ih fun e he => hitem e (List.mem_cons_of_mem _ he)
    exact ⟨_, by rw [saveItems, if_pos hn, hc, hbs]; rfl⟩

/-- A cache fed in pieces has the counts of the whole sequence, merging adds counts in any order and
grouping, and a saved cache is the one that is loaded. -/
theorem cache_laws (ngramMin ngramMax : Nat) {seq : List Int} (hseq : ∀ x ∈ seq, 0 ≤ x)
    (hmax : ngramMax ≤ 4) (chunks : List (List Int)) (hchunks : chunks.flatten = seq)
    {a b c : Cache} (ha : a.Sound) (hb : b.Sound) (hc : c.Sound) (htyped : c.Typed) :
    ((∀ w : List Int, (∀ x ∈ w, 0 ≤ x) → ngramMin ≤ w.length → w.length ≤ ngramMax → ∀ t,
        Cache.entry (feed ngramMin ngramMax chunks [] Hashmap.empty) (ngramOf w) t =
          if followed w t seq = 0 then none else some (followed w t seq : Int)) ∧
      ∀ g, ((feed ngramMin ngramMax chunks [] Hashmap.empty).find g).isSome →
        ∃ w t, ngramMin ≤ w.length ∧ w.length ≤ ngramMax ∧ (∀ x ∈ w, 0 ≤ x) ∧ g = ngramOf w ∧
          0 < followed w t seq) ∧
    ((∃ ab, merge a b = some ab ∧ ab.Sound ∧
        (∀ g t, (ab.entry g t).getD 0 = (a.entry g t).getD 0 + (b.entry g t).getD 0) ∧
        ∀ g, (ab.find g).isSome = ((a.find g).isSome || (b.find g).isSome)) ∧
      (∃ ab ba, merge a b = some ab ∧ merge b a = some ba ∧ ab.Same ba) ∧
      ∃ ab bc left right, merge a b = some ab ∧ merge b c = some bc ∧ merge ab c = some left ∧
        merge a bc = some right ∧ left.Same right) ∧
    (∀ bs, save c = some bs → ∃ c', load bs = some c' ∧ c'.Same c) ∧
    ((∀ e ∈ c.entries, e.2.entries.length < 2147483648) → ∃ bs, save c = some bs) :=
  ⟨feed_counts hseq hmax chunks hchunks, merge_laws ha hb hc, fun _ hs => load_save htyped hs,
    save_isSome hc⟩

theorem cache_laws_small :
    ∃ bs c', save (feed 1 1 [[7], [8]] [] Hashmap.empty) = some bs ∧ load bs = some c' ∧
      c'.Same (feed 1 1 [[7], [8]] [] Hashmap.empty) := by
  have hentries : (feed 1 1 [[7], [8]] [] Hashmap.empty).entries =
      [(ngramAt [7, 8] 0 1, Hashmap.empty.insert 8 1)] := rfl
  have htyped : (feed 1 1 [[7], [8]] [] Hashmap.empty).Typed := by
    constructor
    · intro e he i
      rw [hentries, List.mem_singleton] at he
      subst he
      fin_cases i <;> exact ⟨by decide, by decide⟩
    · intro e he e' he'
      rw [hentries, List.mem_singleton] at he
      subst he
      obtain rfl := List.mem_singleton.1 he'
      exact ⟨by decide, by decide⟩
    · intro e he e' he'
      rw [hentries, List.mem_singleton] at he
      subst he
      obtain rfl := List.mem_singleton.1 he'
      exact ⟨by decide, by decide⟩
  have hsound : (feed 1 1 [[7], [8]] [] Hashmap.empty).Sound :=
    sound_feed [[7], [8]] [] Cache.sound_empty
  obtain ⟨_, _, hload, hsave⟩ := cache_laws 1 1 (show ∀ x ∈ [7, 8], (0 : Int) ≤ x by decide)
    (by decide) [[7], [8]] rfl hsound hsound hsound htyped
  obtain ⟨bs, hbs⟩ := hsave (by rw [hentries]; decide)
  obtain ⟨c', hc', hsame⟩ := hload bs hbs
  exact ⟨bs, c', hbs, hc', hsame⟩

end ActQuant.NgramCache
