import ActQuant.Lib.Lists
import ActQuant.Lib.Run
import ActQuant.NgramCache.Cache

namespace ActQuant.NgramCache
open ActQuant.Lib StateTransition

/-! The tokens that are drafted from the caches, and the n-grams they are looked up by. -/

/-- `LLAMA_NGRAM_STATIC`. -/
def ngramStatic : Nat := 2

/-- What an `int` holds of a number. -/
def toInt32 (i : Int) : Int := i.bmod (2 ^ 32)

/-- What a `size_t` holds of a number. -/
def toSizeT (i : Int) : Nat := (i % 2 ^ 64).toNat

/-- A place in the input or in the draft. -/
inductive Place where
  | inp (i : Nat)
  | draft (i : Nat)
  deriving DecidableEq

def readPlace (inp draft : List Int) : Place → Option Int
  | .inp i => inp[i]?
  | .draft i => draft[i]?

/-- The place `get_token` reads. -/
def tokenPlace (inpSize : Nat) (j : Int) : Place :=
  let i := toSizeT j
  if i < inpSize then .inp i else .draft (toSizeT (1 + i - inpSize))

/-- `get_token`: a token of the combined, speculative sequence. -/
def getToken (inp draft : List Int) (j : Int) : Option Int :=
  readPlace inp draft (tokenPlace inp.length j)

/-- The places the loop over an n-gram reads. -/
def ngramPlaces (inpSize draftSize ngramSize : Nat) : List Place :=
  let start := toInt32 (toInt32 inpSize - ngramSize + draftSize - 1)
  let stop := toInt32 (start + ngramSize)
  (List.range (stop - start).toNat).map fun k : Nat => tokenPlace inpSize (start + k)

/-- The n-gram, where all its tokens exist. -/
def readNgram (inp draft : List Int) (ngramSize : Nat) : Option Ngram :=
  ((ngramPlaces inp.length draft.length ngramSize).mapM (readPlace inp draft)).map ngramOf

def draftMinSampleSizeLax : List Int := [2, 2, 1, 1]
def draftMinPercentLax : List Int := [66, 50, 50, 50]
def draftMinSampleSizeStrict : List Int := [4, 3, 2, 2]
def draftMinPercentStrict : List Int := [75, 66, 66, 66]

/-- The most frequent token so far, with its counts, and the sum of the counts. -/
structure Favourite where
  maxToken : Int
  maxCount : Int
  maxCountStatic : Int
  sumCount : Int
  deriving DecidableEq

/-- `try_draft` from only the static cache. -/
def tryDraftStatic (ncStatic : Cache) (ngram : Ngram) : Int :=
  match ncStatic.find ngram with
  | none => tokenNull
  | some part =>
    let f := part.entries.foldl (fun (f : Favourite) e =>
      let f := if f.maxCount < e.2 then { f with maxToken := e.1, maxCount := e.2 } else f
      { f with sumCount := toInt32 (f.sumCount + e.2) }) ⟨tokenNull, 0, 0, 0⟩
    if f.sumCount < draftMinSampleSizeLax.getD (ngramStatic - 1) 0 then tokenNull
    else if toInt32 (100 * f.maxCount) <
        toInt32 (draftMinPercentLax.getD (ngramStatic - 1) 0 * f.sumCount) then tokenNull
    else f.maxToken

/-- The token that follows one n-gram in the primary cache, weighted with the static cache. -/
def tryDraftNgram (ncPrimary : Cache) (partStatic : Part) (minSampleSize minPercent : Int)
    (ngram : Ngram) : Int :=
  match ncPrimary.find ngram with
  | none => tokenNull
  | some part =>
    let f := part.entries.foldl (fun (f : Favourite) e =>
      let countStatic := ((partStatic.find e.1).map fun c => toInt32 (100 * c)).getD 1
      let f :=
        if toInt32 (f.maxCount * f.maxCountStatic) < toInt32 (e.2 * countStatic) then
          { f with maxToken := e.1, maxCount := e.2, maxCountStatic := countStatic }
        else f
      { f with sumCount := toInt32 (f.sumCount + e.2) }) ⟨tokenNull, 0, 0, 0⟩
    if f.sumCount < minSampleSize then tokenNull
    else if toInt32 (100 * f.maxCount) < toInt32 (minPercent * f.sumCount) then tokenNull
    else f.maxToken

/-- `try_draft` from the primary cache: the last n-gram that gives a token. -/
def tryDraft (ncPrimary : Cache) (ngramsPrimary : List Ngram) (partStatic : Part)
    (minSampleSize minPercent : List Int) : Int :=
  (ngramsPrimary.zipIdx.reverse.findSome? fun e =>
    let token := tryDraftNgram ncPrimary partStatic (minSampleSize.getD e.2 0)
      (minPercent.getD e.2 0) e.1
    if token = tokenNull then none else some token).getD tokenNull

structure Caches where
  context : Cache
  dynamic : Cache
  static : Cache

section Loop
variable (nc : Caches) (inp : List Int) (ngramMin ngramMax : Nat) (nDraft : Int)

/-- The token of one turn, where all tokens that are read exist. -/
def draftToken (draft : List Int) : Option Int :=
  (readNgram inp draft ngramStatic).bind fun ngramStatic =>
    let partStatic := (nc.static.find ngramStatic).getD .empty
    ((sizes ngramMin ngramMax).mapM (readNgram inp draft)).map fun ngramsCd =>
      let token := tryDraft nc.context ngramsCd partStatic draftMinSampleSizeLax draftMinPercentLax
      let token :=
        if token = tokenNull then
          tryDraft nc.dynamic ngramsCd partStatic draftMinSampleSizeStrict draftMinPercentStrict
        else token
      if token = tokenNull then tryDraftStatic nc.static ngramStatic else token

/-- The condition of the loop. -/
def Drafting (draft : List Int) : Prop := toInt32 (toInt32 draft.length - 1) < nDraft

instance (draft : List Int) : Decidable (Drafting nDraft draft) :=
  inferInstanceAs (Decidable (_ < _))

/-- A turn of the loop that goes on. -/
def turn (draft : List Int) : Option (List Int) :=
  if Drafting nDraft draft then
    (draftToken nc inp ngramMin ngramMax draft).bind fun token =>
      if token = tokenNull then none else some (draft ++ [token])
  else none

/-- `common_ngram_cache_draft`. -/
def commonNgramCacheDraft (draft : List Int) : List Int :=
  if toInt32 inp.length < ngramStatic then draft
  else loop (turn nc inp ngramMin ngramMax nDraft) nDraft.toNat draft

/-- The draft at the start of a turn of the loop. -/
structure Iterates (token : Int) (draft : List Int) : Prop where
  enough : ¬ toInt32 inp.length < ngramStatic
  reaches : Reaches (turn nc inp ngramMin ngramMax nDraft) [token] draft
  drafting : Drafting nDraft draft

end Loop

theorem toInt32_of_lt {i : Int} (hlow : -2 ^ 31 ≤ i) (hhigh : i < 2 ^ 31) : toInt32 i = i := by
  rw [toInt32]
  exact Int.bmod_eq_of_le (by omega) (by omega)

theorem toInt32_le (i : Int) : -2 ^ 31 ≤ toInt32 i ∧ toInt32 i < 2 ^ 31 := by
  have hlow := Int.le_bmod (x := i) (m := 2 ^ 32) (by decide)
  have hhigh := Int.bmod_lt (x := i) (m := 2 ^ 32) (by decide)
  rw [toInt32]
  omega

/-- An operation on an `int` is one on the number it was made from. -/
theorem toInt32_add (i j : Int) : toInt32 (toInt32 i + j) = toInt32 (i + j) := by
  rw [toInt32, toInt32, toInt32, Int.bmod_add_bmod]

theorem toSizeT_of_nonneg {i : Int} (h : 0 ≤ i) (hlt : i < 2 ^ 64) : toSizeT i = i.toNat := by
  rw [toSizeT, Int.emod_eq_of_lt h hlt]

theorem toSizeT_of_neg {i : Int} (h : i < 0) (hle : -2 ^ 64 ≤ i) :
    toSizeT i = (i + 2 ^ 64).toNat := by
  rw [toSizeT, ← Int.add_emod_right, Int.emod_eq_of_lt (by omega) (by omega)]

/-- Where a place lies in the sequence of the input and what was drafted. -/
def Place.position (inpSize : Nat) : Place → Nat
  | .inp i => i
  | .draft i => inpSize + i - 1

/-- The places of the input, then those of the draft behind the token it starts with. -/
def sequencePlaces (inpSize draftSize : Nat) : List Place :=
  (List.range inpSize).map .inp ++ (List.range' 1 (draftSize - 1)).map .draft

/-- An n-gram is that of the last tokens, all of which exist. -/
structure ReadsLast (inp draft : List Int) (n : Nat) : Prop where
  exist : ∀ p ∈ ngramPlaces inp.length draft.length n, (readPlace inp draft p).isSome
  length : (ngramPlaces inp.length draft.length n).length = n
  last : ngramPlaces inp.length draft.length n <:+ sequencePlaces inp.length draft.length
  ngram : ∃ last, last.length = n ∧ last <:+ inp ++ draft.tail ∧
    readNgram inp draft n = some (ngramOf last)

theorem getElem?_sequencePlaces (hdraft : 0 < draftSize) (h : k < inpSize + draftSize - 1) :
    (sequencePlaces inpSize draftSize)[k]? =
      some (if k < inpSize then .inp k else .draft (1 + k - inpSize)) := by
  rw [sequencePlaces]
  split
  case isTrue hk =>
    rw [List.getElem?_append_left (by simpa using hk), List.getElem?_map, List.getElem?_range hk]
    rfl
  case isFalse hk =>
    rw [List.getElem?_append_right (by simpa using hk), List.length_map, List.length_range,
      List.getElem?_map, List.getElem?_range' (by omega), Option.map_some]
    congr 2
    omega

theorem length_sequencePlaces (inpSize draftSize : Nat) :
    (sequencePlaces inpSize draftSize).length = inpSize + (draftSize - 1) := by
  rw [sequencePlaces, List.length_append, List.length_map, List.length_map, List.length_range,
    List.length_range']

/-- The accessor reads the position it is given, as a `size_t`. -/
theorem position_tokenPlace (h : 0 < inpSize) (j : Int) :
    (tokenPlace inpSize j).position inpSize = toSizeT j := by
  have hlt : toSizeT j < 2 ^ 64 := by
    rw [toSizeT]
    omega
  simp only [tokenPlace]
  split
  case isTrue => rfl
  case isFalse hle =>
    rw [Place.position, toSizeT_of_nonneg (by omega) (by omega)]
    omega

theorem tokenPlace_of_lt (h : 0 < inpSize) (hk : k < 2 ^ 63) :
    tokenPlace inpSize (k : Nat) =
      if k < inpSize then .inp k else .draft (1 + k - inpSize) := by
  have hsize : toSizeT (k : Int) = k := by
    rw [toSizeT_of_nonneg (by omega) (by omega), Int.toNat_natCast]
  simp only [tokenPlace, hsize]
  split
  case isTrue => rfl
  case isFalse hle =>
    rw [toSizeT_of_nonneg (by omega) (by omega)]
    congr 1
    omega

theorem readPlace_tokenPlace {inp draft : List Int} (hinp : 0 < inp.length) (hk : k < 2 ^ 63) :
    readPlace inp draft (tokenPlace inp.length (k : Nat)) = (inp ++ draft.tail)[k]? := by
  rw [tokenPlace_of_lt hinp hk]
  split
  case isTrue hlt => rw [readPlace, List.getElem?_append_left hlt]
  case isFalse hle =>
    rw [readPlace, List.getElem?_append_right (by omega), List.getElem?_tail]
    congr 1
    omega

section Ngram
variable {inpSize draftSize n : Nat}

/-- The start of the last `n` tokens, as far as an `int` holds it. -/
theorem ngramStart_eq (inpSize draftSize n : Nat) :
    toInt32 (toInt32 inpSize - n + draftSize - 1) =
      toInt32 ((inpSize : Int) + draftSize - 1 - n) := by
  have hsum : toInt32 inpSize - n + draftSize - 1 =
      toInt32 inpSize + (draftSize - 1 - n : Int) := by omega
  rw [hsum, toInt32_add]
  exact congrArg toInt32 (by omega)

theorem ngramPlaces_of_room (hle : n + 1 ≤ inpSize + draftSize)
    (hlt : inpSize + draftSize ≤ 2 ^ 31) :
    ngramPlaces inpSize draftSize n =
      (List.range n).map fun k => tokenPlace inpSize (inpSize + draftSize - 1 - n + k : Nat) := by
  have hstart : toInt32 ((inpSize : Int) + draftSize - 1 - n) =
      (inpSize + draftSize - 1 - n : Nat) := by
    rw [toInt32_of_lt (by omega) (by omega)]
    omega
  have hstop : toInt32 ((inpSize + draftSize - 1 - n : Nat) + (n : Int)) =
      (inpSize + draftSize - 1 - n : Nat) + (n : Int) := toInt32_of_lt (by omega) (by omega)
  rw [ngramPlaces, ngramStart_eq, hstart, hstop, add_sub_cancel_left, Int.toNat_natCast]
  exact List.map_congr_left fun k _ => congrArg _ (Int.natCast_add _ k).symm

/-- The first place is read at a position that an `int` holds. -/
theorem start_of_suffix (hinp : 0 < inpSize) (hsize : inpSize + draftSize < 2 ^ 62)
    (hdraft : 0 < draftSize) (hn : 0 < n)
    (hlen : (ngramPlaces inpSize draftSize n).length = n)
    (hlast : ngramPlaces inpSize draftSize n <:+ sequencePlaces inpSize draftSize) :
    toInt32 ((inpSize : Int) + draftSize - 1 - n) = inpSize + draftSize - 1 - n := by
  obtain ⟨before, hbefore⟩ := hlast
  have hsum := congrArg List.length hbefore
  rw [List.length_append, length_sequencePlaces, hlen] at hsum
  have hfirst : (ngramPlaces inpSize draftSize n)[0]? =
      some (tokenPlace inpSize (toInt32 ((inpSize : Int) + draftSize - 1 - n))) := by
    rw [ngramPlaces, List.length_map, List.length_range] at hlen
    rw [ngramPlaces, List.getElem?_map, List.getElem?_range (by omega), Option.map_some,
      ngramStart_eq, Int.natCast_zero, Int.add_zero]
  have hget : (sequencePlaces inpSize draftSize)[before.length]? =
      some (tokenPlace inpSize (toInt32 ((inpSize : Int) + draftSize - 1 - n))) := by
    rw [← hbefore, List.getElem?_append_right (Nat.le_refl _), Nat.sub_self, hfirst]
  rw [getElem?_sequencePlaces hdraft (by omega)] at hget
  have hposition := congrArg (Place.position inpSize) (Option.some.inj hget)
  rw [position_tokenPlace hinp, apply_ite (Place.position inpSize)] at hposition
  have hseq : (if before.length < inpSize then Place.position inpSize (.inp before.length)
      else Place.position inpSize (.draft (1 + before.length - inpSize))) = before.length := by
    split
    case isTrue => rfl
    case isFalse =>
      rw [Place.position]
      omega
  rw [hseq] at hposition
  have hbounds := toInt32_le ((inpSize : Int) + draftSize - 1 - n)
  by_cases hneg : toInt32 ((inpSize : Int) + draftSize - 1 - n) < 0
  · rw [toSizeT_of_neg hneg (by omega)] at hposition
    omega
  · rw [toSizeT_of_nonneg (by omega) (by omega)] at hposition
    omega

end Ngram

/-- The last tokens are read where there are as many and an `int` holds their places. -/
theorem readsLast_of_room {inp draft : List Int} (hinp : 0 < inp.length) (hdraft : 0 < draft.length)
    (hle : n + 1 ≤ inp.length + draft.length) (hlt : inp.length + draft.length ≤ 2 ^ 31) :
    ReadsLast inp draft n := by
  have hplaces := ngramPlaces_of_room hle hlt
  have htotal : (inp ++ draft.tail).length = inp.length + draft.length - 1 := by
    rw [List.length_append, List.length_tail]
    omega
  have hread (k : Nat) (hk : k < n) :
      readPlace inp draft (tokenPlace inp.length (inp.length + draft.length - 1 - n + k : Nat)) =
        some (((inp ++ draft.tail).drop (inp.length + draft.length - 1 - n)).getD k 0) := by
    rw [readPlace_tokenPlace hinp (by omega), getElem?_eq_some_getD 0 (by omega),
      List.getD_eq_getElem?_getD, List.getD_eq_getElem?_getD, List.getElem?_drop]
  have hlength : ((inp ++ draft.tail).drop (inp.length + draft.length - 1 - n)).length = n := by
    rw [List.length_drop]
    omega
  constructor
  case exist =>
    rw [hplaces]
    intro p hp
    obtain ⟨k, hk, rfl⟩ := List.mem_map.1 hp
    rw [hread k (List.mem_range.1 hk)]
    rfl
  case length => rw [hplaces, List.length_map, List.length_range]
  case last =>
    have hdrop : (sequencePlaces inp.length draft.length).drop (inp.length + draft.length - 1 - n) =
        ngramPlaces inp.length draft.length n := by
      apply List.ext_getElem?
      intro k
      rw [hplaces, List.getElem?_drop, List.getElem?_map]
      by_cases hk : k < n
      · rw [getElem?_sequencePlaces hdraft (by omega), List.getElem?_range hk, Option.map_some,
          tokenPlace_of_lt hinp (by omega)]
      · rw [List.getElem?_eq_none (by rw [length_sequencePlaces]; omega),
          List.getElem?_eq_none (by rw [List.length_range]; omega), Option.map_none]
    rw [← hdrop]
    exact List.drop_suffix _ _
  case ngram =>
    refine ⟨_, hlength, List.drop_suffix _ _, ?_⟩
    have htokens : (List.range n).mapM (readPlace inp draft ∘ fun k : Nat =>
        tokenPlace inp.length (inp.length + draft.length - 1 - n + k : Nat)) = _ :=
      mapM_eq_some_map fun k hk => hread k (List.mem_range.1 hk)
    rw [readNgram, hplaces, List.mapM_map, htokens, Option.map_some]
    apply congrArg fun last => some (ngramOf last)
    apply List.ext_getElem?
    intro k
    rw [List.getElem?_map]
    by_cases hk : k < n
    · rw [List.getElem?_range hk, Option.map_some, getElem?_eq_some_getD 0 (by omega)]
    · rw [List.getElem?_eq_none (by rw [List.length_range]; omega),
        List.getElem?_eq_none (by omega), Option.map_none]

theorem readsLast_iff {inp draft : List Int} (hinp : 0 < inp.length) (hdraft : 0 < draft.length)
    (hsize : inp.length + draft.length < 2 ^ 62) (hn : 0 < n) :
    ReadsLast inp draft n ↔
      n + 1 ≤ inp.length + draft.length ∧ inp.length + draft.length ≤ 2 ^ 31 := by
  constructor
  · intro h
    have hstart := start_of_suffix hinp hsize hdraft hn h.length h.last
    have hbounds := toInt32_le ((inp.length : Int) + draft.length - 1 - n)
    have hfit := h.last.length_le
    have hlen := h.length
    rw [ngramPlaces, List.length_map, List.length_range, ngramStart_eq, hstart] at hlen
    have hstop := toInt32_le ((inp.length : Int) + draft.length - 1 - n + n)
    rw [length_sequencePlaces, h.length] at hfit
    omega
  · intro ⟨hle, hlt⟩
    exact readsLast_of_room hinp hdraft hle hlt

section Run
variable {nc : Caches} {inp : List Int} {ngramMin ngramMax : Nat} {nDraft token : Int}

/-- The n-grams of a turn, for the static cache and for the others. -/
def ReadsAll (inp draft : List Int) (ngramMin ngramMax : Nat) : Prop :=
  ReadsLast inp draft ngramStatic ∧ ∀ n ∈ sizes ngramMin ngramMax, ReadsLast inp draft n

theorem readsAll_iff {draft : List Int} (hinp : 2 ≤ inp.length) (hdraft : 0 < draft.length)
    (hsize : inp.length + draft.length < 2 ^ 62) (hmin : 1 ≤ ngramMin) (hle : ngramMin ≤ ngramMax) :
    ReadsAll inp draft ngramMin ngramMax ↔
      ngramMax + 1 ≤ inp.length + draft.length ∧ inp.length + draft.length ≤ 2 ^ 31 := by
  have hiff (n : Nat) (hn : 0 < n) : ReadsLast inp draft n ↔ _ :=
    readsLast_iff (by omega) hdraft hsize hn
  constructor
  · intro ⟨_, hcd⟩
    exact (hiff ngramMax (by omega)).1 (hcd ngramMax (mem_sizes.2 ⟨hle, Nat.le_refl _⟩))
  · intro ⟨hmax, hlt⟩
    refine ⟨(hiff ngramStatic (by decide)).2 ⟨by rw [ngramStatic]; omega, hlt⟩, ?_⟩
    intro n hn
    rw [mem_sizes] at hn
    exact (hiff n (by omega)).2 ⟨by omega, hlt⟩

/-- The draft starts with its token and has no more than the loop may add. -/
structure Drafted (token nDraft : Int) (draft : List Int) : Prop where
  head : draft.head? = some token
  length : draft.length ≤ nDraft.toNat + 1

theorem Drafted.pos (h : Drafted token nDraft draft) : 0 < draft.length := by
  cases draft with
  | nil => cases h.head
  | cons t draft => exact Nat.succ_pos _

theorem drafting_iff (h : 0 < draft.length) (hle : draft.length ≤ 2 ^ 31) :
    Drafting nDraft draft ↔ (draft.length : Int) - 1 < nDraft := by
  rw [Drafting, Int.sub_eq_add_neg, toInt32_add, toInt32_of_lt (by omega) (by omega)]
  exact Iff.rfl

theorem Drafted.turn (hn : nDraft < 2 ^ 31) (h : Drafted token nDraft draft)
    (hturn : turn nc inp ngramMin ngramMax nDraft draft = some draft') :
    Drafted token nDraft draft' ∧ draft'.length = draft.length + 1 := by
  have hlength := h.length
  rw [NgramCache.turn] at hturn
  split at hturn
  case isFalse => cases hturn
  case isTrue hdrafting =>
    rw [drafting_iff h.pos (by omega)] at hdrafting
    obtain ⟨t, _, ht⟩ := Option.bind_eq_some_iff.1 hturn
    split at ht
    case isTrue => cases ht
    case isFalse =>
      cases ht
      have hlen : (draft ++ [t]).length = draft.length + 1 := List.length_append
      refine ⟨⟨?_, by omega⟩, hlen⟩
      rw [List.head?_append, h.head]
      rfl

theorem drafted_singleton (token nDraft : Int) : Drafted token nDraft [token] := by
  refine ⟨rfl, ?_⟩
  rw [List.length_singleton]
  omega

theorem drafted_of_reaches (hn : nDraft < 2 ^ 31)
    (h : Reaches (turn nc inp ngramMin ngramMax nDraft) [token] draft) :
    Drafted token nDraft draft :=
  invariant_reaches (drafted_singleton token nDraft) (fun hd ht => (hd.turn hn ht).1) h

/-- All turns look up the last tokens, which exist, if and only if in every turn there are as many
tokens as an n-gram may have and no more than an `int` counts. A vector of tokens has less than
`2 ^ 61` elements. -/
theorem readsAll_run_iff (hinp : 2 ≤ inp.length) (hvector : inp.length < 2 ^ 61)
    (hn : nDraft < 2 ^ 31) (hmin : 1 ≤ ngramMin) (hle : ngramMin ≤ ngramMax) :
    (∀ draft, Iterates nc inp ngramMin ngramMax nDraft token draft →
        ReadsAll inp draft ngramMin ngramMax) ↔
      ∀ draft, Iterates nc inp ngramMin ngramMax nDraft token draft →
        ngramMax + 1 ≤ inp.length + draft.length ∧ inp.length + draft.length ≤ 2 ^ 31 := by
  have hiff (draft : List Int) (h : Iterates nc inp ngramMin ngramMax nDraft token draft) :=
    have hdrafted := drafted_of_reaches hn h.reaches
    have hlength := hdrafted.length
    readsAll_iff hinp hdrafted.pos (by omega) hmin hle
  exact forall_congr' fun draft => forall_congr' fun h => hiff draft h

theorem readsAll_run_iff_fourTokens :
    (∀ draft, Iterates ⟨.empty, .empty, .empty⟩ [5, 7, 9, 9] 1 4 16 9 draft →
        ReadsAll [5, 7, 9, 9] draft 1 4) ↔
      ∀ draft, Iterates ⟨.empty, .empty, .empty⟩ [5, 7, 9, 9] 1 4 16 9 draft →
        4 + 1 ≤ [5, 7, 9, 9].length + draft.length ∧
          [5, 7, 9, 9].length + draft.length ≤ 2 ^ 31 :=
  readsAll_run_iff (by decide) (by decide) (by decide) (by decide) (by decide)

/-- After two tokens the places of longer n-grams start in front of the input, and the accessor
takes them for places of the draft. -/
theorem missing_of_twoTokens :
    ¬ ∀ draft, Iterates ⟨.empty, .empty, .empty⟩ [7, 9] 1 4 16 9 draft →
      ∀ n ∈ sizes 1 4, ∀ p ∈ ngramPlaces [7, 9].length draft.length n,
        (readPlace [7, 9] draft p).isSome := by
  intro h
  have hfirst : Iterates ⟨.empty, .empty, .empty⟩ [7, 9] 1 4 16 9 [9] :=
    ⟨by decide, .refl, by decide⟩
  exact absurd (h [9] hfirst) (by decide)

end Run

end ActQuant.NgramCache
