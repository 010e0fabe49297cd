import ActQuant.Lib.Buckets
import Mathlib.Data.Rat.Lemmas
import Mathlib.Order.Lattice

namespace ActQuant.Sampling
open ActQuant.Lib

/-! Candidate tokens, and the functions on them that several samplers share. -/

/-- Floating-point numbers: their order and their operations. -/
class Floats (F : Type) extends LinearOrder F where
  /-- The number of a literal. -/
  ofRat : ℚ → F
  negInf : F
  add : F → F → F
  sub : F → F → F
  mul : F → F → F
  div : F → F → F
  neg : F → F
  fabs : F → F
  exp : F → F
  log : F → F
  log2 : F → F
  sqrt : F → F
  pow : F → F → F
  /-- The conversion to an int, towards zero; what is out of range gives the smallest int. -/
  toInt : F → Int

open Floats

/-- What the samplers rely on: the operations keep the order. -/
class LawfulFloats (F : Type) [Floats F] : Prop where
  negInf_le : ∀ x : F, negInf ≤ x
  add_le : ∀ a b c : F, a ≤ b → add a c ≤ add b c
  mul_le : ∀ a b c : F, ofRat 0 < c → a ≤ b → mul c a ≤ mul c b
  div_le : ∀ a b c : F, ofRat 0 < c → a ≤ b → div a c ≤ div b c
  toInt_le : ∀ a b : F, a ≤ b → b < ofRat (2 ^ 31) → toInt a ≤ toInt b
  bucketScale_pos : (ofRat 0 : F) < ofRat (32 / 5)
  thold_pos : (ofRat 0 : F) < ofRat (1 / 5)

/-- `llama_token_data`. -/
structure TokenData (F : Type) where
  id : Int
  logit : F
  p : F
  deriving DecidableEq

/-- `llama_token_data_array`; `data` has the `size` tokens from the data pointer on. -/
structure Cands (F : Type) where
  data : List (TokenData F)
  selected : Int
  sorted : Bool
  deriving DecidableEq

namespace Cands

def size (cur : Cands F) : Nat := cur.data.length

end Cands

/-- The sorting functions of the standard library with the comparison of logits from large to
small, and `std::sort` of indices by a score from small to large. -/
class Sorters (F : Type) where
  sort : List (TokenData F) → List (TokenData F)
  partialSort : Nat → List (TokenData F) → List (TokenData F)
  sortIndices : List F → List Nat → List Nat

open Sorters

/-- In non-increasing order of the logits. -/
def Descending [Floats F] (l : List (TokenData F)) : Prop := l.Pairwise fun a b => b.logit ≤ a.logit

/-- What the standard library promises about sorting, which is not stable. -/
class LawfulSorters (F : Type) [Floats F] [Sorters F] : Prop where
  sort_perm : ∀ l : List (TokenData F), (sort l).Perm l
  sort_descending : ∀ l : List (TokenData F), Descending (sort l)
  partialSort_perm : ∀ n (l : List (TokenData F)), (partialSort n l).Perm l
  partialSort_descending : ∀ n (l : List (TokenData F)), n ≤ l.length →
    Descending ((partialSort n l).take n)
  partialSort_top : ∀ n (l : List (TokenData F)), n ≤ l.length →
    ∀ a ∈ (partialSort n l).take n, ∀ b ∈ (partialSort n l).drop n, b.logit ≤ a.logit

section
variable [Floats F] [Sorters F]

def nbuckets : Nat := 128

/-- Where a logit lies among 128 buckets over the range from -10 to 10. -/
def bucketNumber (val : F) : F := add (mul (ofRat (32 / 5)) val) (ofRat 64)

/-- The bucket of a logit. -/
def bucketIdx (val : F) : Nat :=
  (max 0 (min ((nbuckets : Int) - 1) (toInt (bucketNumber val)))).toNat

/-- The number of the bucket does not leave the range of an int at its upper end. -/
def Numbered (val : F) : Prop := bucketNumber val < ofRat (2 ^ 31)

/-- The tokens of a bucket. -/
def bucket (data : List (TokenData F)) (ib : Nat) : List (TokenData F) :=
  data.filter fun t => bucketIdx t.logit = ib

/-- The bucket, going down, with which there are enough tokens. -/
def lastBucket (histo : Nat → Nat) ( npartial : Nat) : Nat → Nat → Nat
  | 0, _ => 0
  | ib + 1, nhave =>
    let nhave := nhave + histo (ib + 1)
    if npartial ≤ nhave then ib + 1 else lastBucket histo npartial ib nhave

/-- The buckets above one, from the top, each sorted. -/
def sortedAbove (data : List (TokenData F)) (ib : Nat) : List (TokenData F) :=
  downTo (fun j => sort (bucket data j)) (nbuckets - 1) ib

/-- `llama_token_data_array_partial_sort`. -/
def partialSortBuckets (data : List (TokenData F)) ( npartial : Nat) : List (TokenData F) :=
  let ib := lastBucket (fun j => (bucket data j).length) npartial (nbuckets - 1) 0
  let done := sortedAbove data ib
  done ++ partialSort ( npartial - done.length) (bucket data ib)

/-- `llama_token_data_array_partial_sort_inplace`. -/
def partialSortInplace (cur : Cands F) ( npartial : Nat) : Cands F :=
  if npartial ≤ 128 then
    { cur with data := (partialSort npartial cur.data).take npartial, sorted := true }
  else
    { cur with data := (partialSortBuckets cur.data npartial).take npartial, sorted := true }

def TokenData.mask (t : TokenData F) : TokenData F := { t with logit := negInf }

/-- The loop of `llama_sampler_temp_impl` for a temperature that is not positive: `kept` is the
token with the highest logit so far, between those it has replaced and those it has passed. -/
def keepHighest (before : List (TokenData F)) (kept : TokenData F) (passed : List (TokenData F)) :
    List (TokenData F) → List (TokenData F)
  | [] => before ++ kept :: passed
  | t :: rest =>
    if kept.logit < t.logit then keepHighest (before ++ kept.mask :: passed) t [] rest
    else keepHighest before kept (passed ++ [t.mask]) rest

/-- `llama_sampler_temp_impl`. -/
def tempImpl (cur : Cands F) (temp : F) : Cands F :=
  if temp ≤ ofRat 0 then
    match cur.data with
    | [] => cur
    | first :: rest => { cur with data := keepHighest [] first [] rest }
  else { cur with data := cur.data.map fun t => { t with logit := div t.logit temp } }

/-- The highest logit, which is the first one where the tokens are flagged as sorted. -/
def maxLogit (sorted : Bool) : List (TokenData F) → F
  | [] => negInf
  | first :: rest =>
    if sorted then first.logit else rest.foldl (fun m t => max m t.logit) first.logit

/-- The probabilities of the tokens by their logits below a maximum. -/
def setProbs (maxL : F) (data : List (TokenData F)) : List (TokenData F) :=
  let data := data.map fun t => { t with p := exp (sub t.logit maxL) }
  let cumSum := data.foldl (fun s t => add s t.p) (ofRat 0)
  data.map fun t => { t with p := div t.p cumSum }

/-- `llama_sampler_softmax_impl`. -/
def softmaxImpl (cur : Cands F) (doSort : Bool) : Option (Cands F) :=
  if cur.data = [] then none
  else
    let cur := if doSort ∧ ¬ cur.sorted then partialSortInplace cur cur.size else cur
    some { cur with data := setProbs (maxLogit cur.sorted cur.data) cur.data }

/-- `llama_sampler_top_k_impl`. -/
def topKImpl (cur : Cands F) (k : Int) : Cands F :=
  if k ≤ 0 then cur
  else
    let k := min k.toNat cur.size
    let cur := if cur.sorted then cur else partialSortInplace cur k
    { cur with data := cur.data.take k }

end
end ActQuant.Sampling

namespace ActQuant.Sampling
open ActQuant.Lib Floats Sorters

/-! The sorting functions put the tokens in order of their logits. -/

variable [Floats F]

theorem descending_iff {l : List (TokenData F)} :
    Descending l ↔ (l.map (·.logit)).Pairwise fun a b => b ≤ a := by
  rw [Descending, List.pairwise_map]

theorem Descending.of_logits {l l' : List (TokenData F)} (h : Descending l)
    (hl : (l'.map (·.logit)).Sublist (l.map (·.logit))) : Descending l' :=
  descending_iff.2 ((descending_iff.1 h).sublist hl)

theorem Descending.sublist {l l' : List (TokenData F)} (h : Descending l) (hl : l'.Sublist l) :
    Descending l' :=
  List.Pairwise.sublist hl h

theorem Descending.take {l : List (TokenData F)} (h : Descending l) (n : Nat) :
    Descending (l.take n) := h.sublist (List.take_sublist n l)

theorem descending_of_length_le_one {l : List (TokenData F)} (h : l.length ≤ 1) : Descending l := by
  match l, h with
  | [], _ => exact List.Pairwise.nil
  | [t], _ => exact List.pairwise_singleton _ t

/-- The first of the tokens in order has the highest logit. -/
theorem Descending.maxLogit_eq {l : List (TokenData F)} (h : Descending l) :
    maxLogit true l = maxLogit false l := by
  cases l with
  | nil => rfl
  | cons first rest =>
    have hle : ∀ t ∈ rest, t.logit ≤ first.logit := (List.pairwise_cons.1 h).1
    have hfold : ∀ l' : List (TokenData F), (∀ t ∈ l', t.logit ≤ first.logit) →
        l'.foldl (fun m t => max m t.logit) first.logit = first.logit := by
      intro l' hl'
      induction l' with
      | nil => rfl
      | cons t l' ih =>
        rw [List.foldl_cons, max_eq_left (hl' t (.head _))]
        exact ih fun t' ht' => hl' t' (.tail _ ht')
    exact (hfold rest hle).symm

@[simp] theorem setProbs_logits (maxL : F) (data : List (TokenData F)) :
    (setProbs maxL data).map (·.logit) = data.map (·.logit) := by
  rw [setProbs, List.map_map, List.map_map]
  rfl

theorem setProbs_length (maxL : F) (data : List (TokenData F)) :
    (setProbs maxL data).length = data.length := by
  rw [setProbs, List.length_map, List.length_map]

theorem Descending.setProbs {data : List (TokenData F)} (h : Descending data) (maxL : F) :
    Descending (setProbs maxL data) :=
  h.of_logits (by rw [setProbs_logits])

theorem mem_bucket {data : List (TokenData F)} :
    t ∈ bucket data ib ↔ t ∈ data ∧ bucketIdx t.logit = ib := by
  rw [bucket, List.mem_filter, decide_eq_true_eq]

theorem bucketIdx_le_top (val : F) : bucketIdx val ≤ nbuckets - 1 := by
  rw [bucketIdx, nbuckets]
  omega

section
variable [LawfulFloats F]

theorem bucketNumber_le {a b : F} (h : a ≤ b) : bucketNumber a ≤ bucketNumber b :=
  LawfulFloats.add_le _ _ (ofRat 64) (LawfulFloats.mul_le a b _ LawfulFloats.bucketScale_pos h)

theorem Numbered.of_le {a b : F} (hb : Numbered b) (h : a ≤ b) : Numbered a :=
  lt_of_le_of_lt (bucketNumber_le h) hb

theorem bucketIdx_le {a b : F} (h : a ≤ b) (hb : Numbered b) : bucketIdx a ≤ bucketIdx b := by
  have hint := LawfulFloats.toInt_le _ _ (bucketNumber_le h) hb
  rw [bucketIdx, bucketIdx]
  omega

theorem le_of_bucketIdx_lt {a b : F} (hb : Numbered b) (h : bucketIdx b < bucketIdx a) :
    b ≤ a := by
  by_contra hlt
  exact absurd (bucketIdx_le (le_of_not_ge hlt) hb) (by omega)

end

/-- With the last bucket there are enough tokens, and without it there are not. -/
theorem lastBucket_spec {cnt histo : Nat → Nat} (hcnt : ∀ j, cnt j = cnt (j + 1) + histo j)
    (hlt : cnt (k + 1) < n) (hn : n ≤ cnt 0) :
    cnt (lastBucket histo n k (cnt (k + 1)) + 1) < n ∧
      n ≤ cnt (lastBucket histo n k (cnt (k + 1))) ∧ lastBucket histo n k (cnt (k + 1)) ≤ k := by
  induction k with
  | zero => exact ⟨hlt, hn, Nat.le_refl 0⟩
  | succ k ih =>
    have hk := hcnt (k + 1)
    rw [lastBucket]
    simp only [← hk]
    split
    case isTrue hle => exact ⟨hlt, hle, Nat.le_refl _⟩
    case isFalse hle =>
      obtain ⟨h1, h2, h3⟩ := ih (Nat.lt_of_not_le hle)
      exact ⟨h1, h2, Nat.le_succ_of_le h3⟩

/-- How many tokens are in a bucket or above it. -/
def atLeast (data : List (TokenData F)) (j : Nat) : Nat :=
  (data.filter fun t => j ≤ bucketIdx t.logit).length

theorem atLeast_zero (data : List (TokenData F)) : atLeast data 0 = data.length := by
  simp only [atLeast, Nat.zero_le, decide_true, List.filter_true]

theorem atLeast_top (data : List (TokenData F)) : atLeast data (nbuckets - 1 + 1) = 0 := by
  rw [atLeast, List.length_eq_zero_iff, List.filter_eq_nil_iff]
  intro t _ hle
  have hbound := bucketIdx_le_top t.logit
  rw [decide_eq_true_eq] at hle
  omega

theorem atLeast_step (data : List (TokenData F)) (j : Nat) :
    atLeast data j = atLeast data (j + 1) + (bucket data j).length :=
  length_filter_le (fun t : TokenData F => bucketIdx t.logit) data j

section
variable [Sorters F]

theorem partialSortInplace_sorted (cur : Cands F) (n : Nat) :
    (partialSortInplace cur n).sorted = true := by
  rw [partialSortInplace]
  split
  · rfl
  · rfl

variable [LawfulSorters F]

theorem mem_sort {l : List (TokenData F)} : t ∈ sort l ↔ t ∈ l :=
  (LawfulSorters.sort_perm l).mem_iff

theorem length_partialSort (n : Nat) (l : List (TokenData F)) :
    (partialSort n l).length = l.length :=
  (LawfulSorters.partialSort_perm n l).length_eq

/-- The buckets above one have the tokens that lie in them. -/
theorem perm_sortedAbove {data : List (TokenData F)} (h : ib ≤ nbuckets - 1) :
    (sortedAbove data ib).Perm (data.filter fun t => ib + 1 ≤ bucketIdx t.logit) :=
  perm_downTo (fun j => LawfulSorters.sort_perm (bucket data j))
    (fun t _ => bucketIdx_le_top t.logit) h

theorem length_sortedAbove {data : List (TokenData F)} (h : ib ≤ nbuckets - 1) :
    (sortedAbove data ib).length = atLeast data (ib + 1) :=
  (perm_sortedAbove h).length_eq

/-- How the partial sort divides the tokens: the sorted ones of the buckets above the last one
are fewer than asked for, and with those of the last bucket there are enough. -/
theorem partialSortBuckets_split {data : List (TokenData F)} (h0 : 0 < n) (hn : n ≤ data.length) :
    ∃ ib, ib ≤ nbuckets - 1 ∧ partialSortBuckets data n =
        sortedAbove data ib ++ partialSort (n - (sortedAbove data ib).length) (bucket data ib) ∧
      (sortedAbove data ib).length < n ∧
      n ≤ (sortedAbove data ib).length + (bucket data ib).length := by
  have hspec := lastBucket_spec (k := nbuckets - 1) (atLeast_step data)
    (by rw [atLeast_top]; exact h0) (by rw [atLeast_zero]; exact hn)
  rw [atLeast_top] at hspec
  obtain ⟨hlt, hle, hib⟩ := hspec
  rw [← length_sortedAbove hib] at hlt
  rw [atLeast_step, ← length_sortedAbove hib] at hle
  exact ⟨_, hib, rfl, hlt, hle⟩

theorem length_partialSortBuckets {data : List (TokenData F)} (h0 : 0 < n)
    (hn : n ≤ data.length) : n ≤ (partialSortBuckets data n).length := by
  obtain ⟨ib, _, heq, _, hle⟩ := partialSortBuckets_split h0 hn
  rw [heq, List.length_append, length_partialSort]
  exact hle

theorem partialSortInplace_size {cur : Cands F} (hn : n ≤ cur.size) :
    (partialSortInplace cur n).size = n := by
  rw [partialSortInplace]
  split
  case isTrue =>
    rw [Cands.size, List.length_take, length_partialSort]
    exact Nat.min_eq_left hn
  case isFalse h =>
    rw [Cands.size, List.length_take]
    exact Nat.min_eq_left (length_partialSortBuckets (by omega) hn)

variable [LawfulFloats F]

theorem sortedAbove_descending {data : List (TokenData F)} (hnum : ∀ t ∈ data, Numbered t.logit)
    (ib : Nat) : Descending (sortedAbove data ib) := by
  refine pairwise_downTo (fun j => LawfulSorters.sort_descending (bucket data j)) ?_
  intro i j hij a ha b hb
  rw [mem_sort, mem_bucket] at ha hb
  apply le_of_bucketIdx_lt (hnum b hb.1)
  rw [ha.2, hb.2]
  exact hij

theorem partialSortBuckets_descending {data : List (TokenData F)}
    (hnum : ∀ t ∈ data, Numbered t.logit) (h0 : 0 < n) (hn : n ≤ data.length) :
    Descending ((partialSortBuckets data n).take n) := by
  obtain ⟨ib, _, heq, hlt, hle⟩ := partialSortBuckets_split h0 hn
  rw [heq, List.take_append, List.take_of_length_le (Nat.le_of_lt hlt)]
  have hlast := LawfulSorters.partialSort_descending (n - (sortedAbove data ib).length)
    (bucket data ib) (by omega)
  refine List.pairwise_append.2 ⟨sortedAbove_descending hnum ib, hlast, ?_⟩
  intro a ha b hb
  obtain ⟨j, hj, _, ha⟩ := mem_downTo.1 ha
  rw [mem_sort, mem_bucket] at ha
  have hb := (LawfulSorters.partialSort_perm _ _).mem_iff.1 (List.mem_of_mem_take hb)
  rw [mem_bucket] at hb
  apply le_of_bucketIdx_lt (hnum b hb.1)
  rw [ha.2, hb.2]
  exact hj

theorem partialSortInplace_descending {cur : Cands F}
    (hnum : 128 < n → ∀ t ∈ cur.data, Numbered t.logit) (hn : n ≤ cur.size) :
    Descending (partialSortInplace cur n).data := by
  rw [partialSortInplace]
  split
  case isTrue => exact LawfulSorters.partialSort_descending n cur.data hn
  case isFalse h => exact partialSortBuckets_descending (hnum (by omega)) (by omega) hn

end
end ActQuant.Sampling
