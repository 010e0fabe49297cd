import ActQuant.Hsic.Samples
import ActQuant.Lib.Memo
import Mathlib.Data.Char
import Mathlib.LinearAlgebra.Matrix.Symmetric

namespace ActQuant.Hsic
open ActQuant.Lib Matrix

/-- An element type of the arrays: what `tobytes` writes for an element, and its value. -/
structure ElemFormat (R : Type) where
  Elem : Type
  bytes : Elem → List UInt8
  val : Elem → R

/-- An activation matrix of `n` rows. -/
structure Acts (F : ElemFormat R) (n : Nat) where
  d : Nat
  elems : Fin n → Fin d → F.Elem

variable {n : Nat} {R : Type} {F : ElemFormat R}

def Acts.tobytes (Z : Acts F n) : List UInt8 :=
  (List.finRange n).flatMap fun i => (List.finRange Z.d).flatMap fun j => F.bytes (Z.elems i j)

/-- `Z_in.tobytes()[:64]`. -/
def Acts.inKey (Z : Acts F n) : List UInt8 := Z.tobytes.take 64

def Acts.values (Z : Acts F n) : Matrix (Fin n) (Fin Z.d) R := fun i j => F.val (Z.elems i j)

section Kernels
variable [Field R] [LinearOrder R]

inductive KernelType where
  | rbf | linear
  deriving DecidableEq

/-- What the kernels use of the numbers: the exponential, a median, and the pairs it is taken of. -/
structure Numerics (n : Nat) (R : Type) where
  exp : R → R
  median : List R → R
  pairs : List (Fin n × Fin n)

def distmat (X : Matrix (Fin n) (Fin d) R) : Matrix (Fin n) (Fin n) R := fun i j =>
  max ((∑ k, X i k * X i k) + (∑ k, X j k * X j k) - 2 * (X * Xᵀ) i j) 0

/-- The bandwidth, from the one given or else from a median of the distances. -/
def rbfVariance (N : Numerics n R) (sigma : Option R) (D : Matrix (Fin n) (Fin n) R) (d : Nat) :
    R :=
  match sigma with
  | some sigma => 2 * sigma * sigma * d
  | none =>
    let flat := N.pairs.map fun p => D p.1 p.2
    let sigmaEst := if N.median flat ≤ 0 then flat.sum / flat.length else N.median flat
    let sigmaEst := if sigmaEst < 1 / 100 then 1 / 100 else sigmaEst
    2 * sigmaEst * sigmaEst

/-- `_rbf_kernel_torch`. -/
def rbfKernel (N : Numerics n R) (sigma : Option R) (X : Matrix (Fin n) (Fin d) R) :
    Matrix (Fin n) (Fin n) R :=
  let D := distmat X
  fun i j => N.exp (-D i j / rbfVariance N sigma D d)

def kernel (N : Numerics n R) (sigma : Option R) (kernelType : KernelType)
    (X : Matrix (Fin n) (Fin d) R) : Matrix (Fin n) (Fin n) R :=
  match kernelType with
  | .rbf => rbfKernel N sigma X
  | .linear => X * Xᵀ

end Kernels

/-- `int(part)`, for the decimal numerals the names are made of. -/
def parseInt (part : List Char) : Option Nat :=
  if part = [] then none
  else part.foldlM (fun v c => if c.isDigit then some (10 * v + (c.toNat - '0'.toNat)) else none) 0

/-- A tensor as it is visited: its matrices, and the layer and type read off its name. -/
structure TensorActs (F : ElemFormat R) (n : Nat) where
  name : List Char
  zIn : Acts F n
  zOut : Acts F n
  layer : Nat
  type : List Char

/-- The tensors in the order `sorted(out_acts.keys())`; a missing input raises an error. -/
def entries (inActs outActs : Dict (List Char) (Acts F n)) : Option (List (TensorActs F n)) :=
  ((outActs.map Prod.fst).insertionSort (· ≤ ·)).mapM fun name => do
    let zOut ← outActs.lookup name
    let zIn ← inActs.lookup name
    let parts := name.splitOn '.'
    let layer ← parts[1]?.bind parseInt
    let type ← parts[2]?
    return ⟨name, zIn, zOut, layer, type⟩

structure TensorScore (R : Type) where
  hsicXOut : R
  hsicYOut : R
  fOut : R
  hsicXIn : R
  hsicYIn : R
  fIn : R
  sens : R
  dIn : Nat
  dOut : Nat
  layer : Nat
  type : List Char

structure Results (R : Type) where
  nSamples : Nat
  nTensors : Nat
  tensors : List (List Char × TensorScore R)

section Scores
variable [Field R] [LinearOrder R]

/-- The arguments of a scorer other than the tensors. -/
structure ScoreArgs (n : Nat) (R : Type) where
  dX : Nat
  xActs : Matrix (Fin n) (Fin dX) R
  dY : Nat
  yActs : Matrix (Fin n) (Fin dY) R
  kernelY : KernelType
  lx : R
  ly : R

/-- The two terms of one side of a tensor, for the statistic of a scorer. -/
def sideTerms (stat : Matrix (Fin n) (Fin n) R → Matrix (Fin n) (Fin n) R → R)
    (N : Numerics n R) (sigma : Option R) (kernelHidden : KernelType) (args : ScoreArgs n R)
    (Z : Acts F n) : R × R :=
  let kZ := kernel N sigma kernelHidden Z.values
  (stat (kernel N sigma kernelHidden args.xActs) kZ,
    stat kZ (kernel N sigma args.kernelY args.yActs))

/-- A tensor's record, from the terms of its output and those of its input. -/
def tensorScore (args : ScoreArgs n R) (e : TensorActs F n) (out inp : R × R) :
    List Char × TensorScore R :=
  let fOut := -args.lx * out.1 + args.ly * out.2
  let fIn := -args.lx * inp.1 + args.ly * inp.2
  (e.name,
    { hsicXOut := out.1, hsicYOut := out.2, fOut
      hsicXIn := inp.1, hsicYIn := inp.2, fIn
      sens := fOut - fIn, dIn := e.zIn.d, dOut := e.zOut.d, layer := e.layer, type := e.type })

variable (stat : Matrix (Fin n) (Fin n) R → Matrix (Fin n) (Fin n) R → R) (N : Numerics n R)
  (sigma : Option R) (kernelHidden : KernelType) (args : ScoreArgs n R)
  (inActs outActs : Dict (List Char) (Acts F n))

/-- The loop over the tensors, with the terms of the input side kept under its key. -/
def scoreCached : Option (Results R) := do
  let es ← entries inActs outActs
  let terms (Z : Acts F n) : R × R := sideTerms stat N sigma kernelHidden args Z
  return ⟨n, outActs.length, memoMap (fun e => e.zIn.inKey) (fun e => terms e.zIn)
    (fun e => tensorScore args e (terms e.zOut)) [] es⟩

/-- The loop with every term recomputed for every tensor. -/
def scoreUncached : Option (Results R) := do
  let es ← entries inActs outActs
  let terms (Z : Acts F n) : R × R := sideTerms stat N sigma kernelHidden args Z
  return ⟨n, outActs.length, es.map fun e => tensorScore args e (terms e.zOut) (terms e.zIn)⟩

/-- `compute_tensor_hsic_gpu`, whose traces are taken in chunks of 2048 rows. -/
def computeTensorHsicGpu : Option (Results R) :=
  scoreCached (hsicGpu 2048) N sigma kernelHidden args inActs outActs

/-- `compute_tensor_hsic_scores_gpu`, which multiplies by the centering matrix. -/
def computeTensorHsicScoresGpu : Option (Results R) :=
  scoreCached (fun K L => hsic K L (centeringMatrix n R)) N sigma kernelHidden args inActs outActs

end Scores

section Centred
variable [Field R]

theorem centeringMatrix_isSymm : (centeringMatrix n R).IsSymm := by
  ext i j
  simp only [transpose_apply, centeringMatrix, eq_comm]

/-- `H K H`, all that the statistic sees of a kernel. -/
def centred (K : Matrix (Fin n) (Fin n) R) : Matrix (Fin n) (Fin n) R :=
  centeringMatrix n R * K * centeringMatrix n R

theorem centred_isSymm {K : Matrix (Fin n) (Fin n) R} (hK : K.IsSymm) : (centred K).IsSymm := by
  rw [IsSymm, centred, transpose_mul, transpose_mul, centeringMatrix_isSymm.eq, hK.eq,
    Matrix.mul_assoc]

theorem hsic_eq_trace_centred (K L : Matrix (Fin n) (Fin n) R) :
    hsic K L (centeringMatrix n R) = trace (K * centred L) / ((n : R) - 1) ^ 2 := by
  rw [hsic_eq_trace, centred, Matrix.mul_assoc K, Matrix.mul_assoc K]

theorem centred_of_le_one (hn : n ≤ 1) (K : Matrix (Fin n) (Fin n) R) : centred K = 0 := by
  have hH : centeringMatrix n R = 0 := by
    ext i j
    obtain rfl : n = 1 := by
      have hi := i.isLt
      omega
    simp [centeringMatrix, Subsingleton.elim i j]
  rw [centred, hH, Matrix.mul_zero]

/-- One column against a matrix. -/
theorem trace_column_mul (y : Fin n → R) (C : Matrix (Fin n) (Fin n) R) :
    trace ((of fun i (_ : Fin 1) => y i) * (of fun i (_ : Fin 1) => y i)ᵀ * C) = y ⬝ᵥ C *ᵥ y := by
  rw [Matrix.mul_assoc, trace_mul_comm, trace_fin_one]
  simp only [mul_apply, transpose_apply, of_apply, dotProduct, mulVec, Finset.sum_mul,
    Finset.mul_sum]
  rw [Finset.sum_comm]
  apply Finset.sum_congr rfl
  intro i _
  apply Finset.sum_congr rfl
  intro j _
  ring

theorem tensorScore_injective (args : ScoreArgs n R) (e : TensorActs F n) (out : R × R) :
    Function.Injective (tensorScore args e out) := by
  intro p q h
  have hscore := congrArg Prod.snd h
  exact Prod.ext (congrArg TensorScore.hsicXIn hscore) (congrArg TensorScore.hsicYIn hscore)

end Centred

section Transparent
variable [Field R] [LinearOrder R]

theorem kernel_isSymm (N : Numerics n R) (sigma : Option R) (kernelType : KernelType)
    (X : Matrix (Fin n) (Fin d) R) : (kernel N sigma kernelType X).IsSymm := by
  have hgram : (X * Xᵀ).IsSymm := by rw [IsSymm, transpose_mul, transpose_transpose]
  cases kernelType with
  | linear => exact hgram
  | rbf =>
    have hdist (i j : Fin n) : distmat X j i = distmat X i j := by
      rw [distmat, distmat, hgram.apply, add_comm (∑ k, X j k * X j k)]
    ext i j
    exact congrArg (fun D => N.exp (-D / rbfVariance N sigma (distmat X) d)) (hdist i j)

variable {N : Numerics n R} {sigma : Option R} {kernelHidden : KernelType}
  {inActs outActs : Dict (List Char) (Acts F n)}

def hiddenKernel (N : Numerics n R) (sigma : Option R) (kernelHidden : KernelType)
    (Z : Acts F n) : Matrix (Fin n) (Fin n) R := kernel N sigma kernelHidden Z.values

/-- Inputs that the memo key confuses have the same centred kernel. -/
def KeysSeparate (N : Numerics n R) (sigma : Option R) (kernelHidden : KernelType)
    (inActs outActs : Dict (List Char) (Acts F n)) : Prop :=
  ∀ es, entries inActs outActs = some es → ∀ e ∈ es, ∀ e' ∈ es, e.zIn.inKey = e'.zIn.inKey →
    centred (hiddenKernel N sigma kernelHidden e.zIn) =
      centred (hiddenKernel N sigma kernelHidden e'.zIn)

theorem scoreCached_eq_iff {stat : Matrix (Fin n) (Fin n) R → Matrix (Fin n) (Fin n) R → R}
    (args : ScoreArgs n R) :
    scoreCached stat N sigma kernelHidden args inActs outActs =
        scoreUncached stat N sigma kernelHidden args inActs outActs ↔
      ∀ es, entries inActs outActs = some es → ∀ e ∈ es, ∀ e' ∈ es,
        e.zIn.inKey = e'.zIn.inKey →
          sideTerms stat N sigma kernelHidden args e.zIn =
            sideTerms stat N sigma kernelHidden args e'.zIn := by
  cases hes : entries inActs outActs with
  | none => simp [scoreCached, scoreUncached, hes]
  | some es =>
    simp only [scoreCached, scoreUncached, hes, Option.bind_eq_bind, Option.bind_some,
      Option.pure_def, Option.some.injEq, Results.mk.injEq, true_and, forall_eq']
    exact memoMap_eq_iff (fun e => tensorScore_injective args e _) es

theorem sideTerms_eq_of_centred {Z Z' : Acts F n} (args : ScoreArgs n R)
    (h : centred (hiddenKernel N sigma kernelHidden Z) =
      centred (hiddenKernel N sigma kernelHidden Z')) :
    sideTerms (fun K L => hsic K L (centeringMatrix n R)) N sigma kernelHidden args Z =
      sideTerms (fun K L => hsic K L (centeringMatrix n R)) N sigma kernelHidden args Z' := by
  rw [hiddenKernel, hiddenKernel] at h
  simp only [sideTerms]
  rw [hsic_comm _ (kernel N sigma args.kernelY args.yActs),
    hsic_comm _ (kernel N sigma args.kernelY args.yActs)]
  simp only [hsic_eq_trace_centred, h]

/-- Every score of both scorers is the one that recomputing all terms gives. -/
def InputCacheTransparent (N : Numerics n R) (sigma : Option R) (kernelHidden : KernelType)
    (inActs outActs : Dict (List Char) (Acts F n)) : Prop :=
  ∀ args : ScoreArgs n R,
    computeTensorHsicGpu N sigma kernelHidden args inActs outActs =
        scoreUncached (hsicGpu 2048) N sigma kernelHidden args inActs outActs ∧
      computeTensorHsicScoresGpu N sigma kernelHidden args inActs outActs =
        scoreUncached (fun K L => hsic K L (centeringMatrix n R)) N sigma kernelHidden args inActs
          outActs

theorem transparent_of_keysSeparate (h : KeysSeparate N sigma kernelHidden inActs outActs) :
    InputCacheTransparent N sigma kernelHidden inActs outActs := by
  intro args
  have hstat : (hsicGpu 2048 : Matrix (Fin n) (Fin n) R → _) =
      fun K L => hsic K L (centeringMatrix n R) := by
    funext K L
    exact hsicGpu_eq (by decide) K L
  rw [computeTensorHsicGpu, hstat, computeTensorHsicScoresGpu, and_self, scoreCached_eq_iff]
  intro es hes e he e' he' hkey
  exact sideTerms_eq_of_centred args (h es hes e he e' he' hkey)

variable [IsStrictOrderedRing R]

/-- A symmetric matrix is determined by its quadratic form. -/
theorem eq_of_quadratic_eq {C D : Matrix (Fin n) (Fin n) R} (hC : C.IsSymm) (hD : D.IsSymm)
    (h : ∀ y, y ⬝ᵥ C *ᵥ y = y ⬝ᵥ D *ᵥ y) : C = D := by
  have hentry (M : Matrix (Fin n) (Fin n) R) (i j : Fin n) :
      Pi.single i 1 ⬝ᵥ M *ᵥ Pi.single j 1 = M i j := by
    rw [single_one_dotProduct, mulVec_single_one, col_apply]
  ext i j
  have hsum := h (Pi.single i 1 + Pi.single j 1)
  have hi := h (Pi.single i 1)
  have hj := h (Pi.single j 1)
  simp only [mulVec_add, add_dotProduct, dotProduct_add, hentry] at hsum hi hj
  rw [hC.apply i j, hD.apply i j] at hsum
  linarith

/-- A target of one column and the linear kernel tell two centred kernels apart. -/
theorem centred_eq_of_sideTerms {Z Z' : Acts F n}
    (h : ∀ args, sideTerms (fun K L => hsic K L (centeringMatrix n R)) N sigma kernelHidden args Z =
      sideTerms (fun K L => hsic K L (centeringMatrix n R)) N sigma kernelHidden args Z') :
    centred (hiddenKernel N sigma kernelHidden Z) =
      centred (hiddenKernel N sigma kernelHidden Z') := by
  by_cases hn : n ≤ 1
  · rw [centred_of_le_one hn, centred_of_le_one hn]
  · have hpos : ((n : R) - 1) ^ 2 ≠ 0 := by
      have hlt : (1 : R) < n := by exact_mod_cast not_le.1 hn
      exact pow_ne_zero 2 (sub_ne_zero.2 hlt.ne')
    apply eq_of_quadratic_eq (centred_isSymm (kernel_isSymm ..))
      (centred_isSymm (kernel_isSymm ..))
    intro y
    have hy := congrArg Prod.snd
      (h ⟨0, of fun _ _ => 0, 1, of fun i _ => y i, .linear, 1, 1⟩)
    simp only [sideTerms] at hy
    rw [hsic_comm, hsic_comm (kernel N sigma kernelHidden Z'.values), hsic_eq_trace_centred,
      hsic_eq_trace_centred, div_left_inj' hpos] at hy
    simp only [kernel, trace_column_mul] at hy
    exact hy

theorem keysSeparate_of_transparent
    (h : InputCacheTransparent N sigma kernelHidden inActs outActs) :
    KeysSeparate N sigma kernelHidden inActs outActs := by
  intro es hes e he e' he' hkey
  apply centred_eq_of_sideTerms
  intro args
  exact (scoreCached_eq_iff args).1 (h args).2 es hes e he e' he' hkey

end Transparent

section Instances

/-- Single precision numbers by their bits, stored with the lowest byte first. -/
def float32 : ElemFormat ℚ where
  Elem := UInt32
  bytes b := [b.toUInt8, (b >>> 8).toUInt8, (b >>> 16).toUInt8, (b >>> 24).toUInt8]
  val b :=
    let mantissa : Nat := b.toNat % 2 ^ 23
    let exponent : Nat := b.toNat / 2 ^ 23 % 2 ^ 8
    let magnitude : ℚ := if exponent = 0 then mantissa / 2 ^ 149
      else (2 ^ 23 + mantissa) * 2 ^ exponent / 2 ^ 150
    if b.toNat / 2 ^ 31 = 0 then magnitude else -magnitude

def numerics : Numerics 2 ℚ := ⟨id, fun _ => 0, []⟩

/-- Two frames of sixteen channels: zeros, and then zeros or ones. -/
def acts (second : UInt32) : Acts float32 2 :=
  ⟨16, fun i _ => if i = 0 then (0 : UInt32) else second⟩

def attnQWeight : List Char := "blk.0.attn_q.weight".toList
def ffnUp : List Char := "blk.0.ffn_up.weight".toList

end Instances

/-! The median heuristic of numpy and of torch. -/

section Heuristic
variable {d : Nat} [LinearOrder R]

section Medians

/-- `np.sort`. -/
def sorted (xs : List R) : List R := xs.insertionSort (· ≤ ·)

theorem length_sorted (xs : List R) : (sorted xs).length = xs.length :=
  List.length_insertionSort _ xs

theorem mem_sorted {xs : List R} : x ∈ sorted xs ↔ x ∈ xs := List.mem_insertionSort _

variable [Field R]

/-- The lower one of the two values in the middle. -/
def lowerMiddle (xs : List R) : R := (sorted xs).getD ((xs.length - 1) / 2) 0

/-- The upper one of the two values in the middle, which is the lower one for an odd length. -/
def upperMiddle (xs : List R) : R := (sorted xs).getD (xs.length / 2) 0

/-- `torch.median`, which takes the lower middle value. -/
def torchMedian (xs : List R) : R := (sorted xs).getD ((xs.length - 1) / 2) 0

/-- `np.median`, which takes the mean of the two middle values of an even number of them. -/
def npMedian (xs : List R) : R :=
  if xs.length % 2 = 1 then (sorted xs).getD (xs.length / 2) 0
  else ((sorted xs).getD (xs.length / 2 - 1) 0 + (sorted xs).getD (xs.length / 2) 0) / 2

def mean (xs : List R) : R := xs.sum / xs.length

/-- `np.triu_indices(n, k=1)`, and the same of torch. -/
def triuIndices (n : Nat) : List (Fin n × Fin n) :=
  (List.finRange n).flatMap fun i => ((List.finRange n).filter (i < ·)).map fun j => (i, j)

end Medians

section NumpyKernel
variable [Field R]

/-- `distmat` of `hsic_utils`. -/
def npDistmat (X : Matrix (Fin n) (Fin d) R) : Matrix (Fin n) (Fin n) R := fun i j =>
  max ((∑ k, X i k ^ 2) + (∑ k, X j k ^ 2) - 2 * (X * Xᵀ) i j) 0

/-- The median heuristic of `rbf_kernel`: the median, the mean where it is zero, the floor. -/
def npSigmaEst (flat : List R) : R :=
  let sigmaEst := npMedian flat
  let sigmaEst := if sigmaEst ≤ 0 then mean flat else sigmaEst
  if sigmaEst < 1 / 100 then 1 / 100 else sigmaEst

/-- `rbf_kernel` of `hsic_utils`. -/
def npRbfKernel (exp : R → R) (sigma : Option R) (X : Matrix (Fin n) (Fin d) R) :
    Matrix (Fin n) (Fin n) R :=
  let D := npDistmat X
  match sigma with
  | some sigma =>
    let variance := 2 * sigma * sigma * d
    fun i j => exp (-D i j / variance)
  | none =>
    let sigmaEst := npSigmaEst ((triuIndices n).map fun p => D p.1 p.2)
    fun i j => exp (-D i j / (2 * sigmaEst * sigmaEst))

/-- `_rbf_kernel_torch`, with the median and the pairs of torch. -/
def torchRbfKernel (exp : R → R) (sigma : Option R) (X : Matrix (Fin n) (Fin d) R) :
    Matrix (Fin n) (Fin n) R :=
  rbfKernel ⟨exp, torchMedian, triuIndices n⟩ sigma X

/-- The squared distances of the pairs of samples. -/
def pairDistances (X : Matrix (Fin n) (Fin d) R) : List R :=
  (triuIndices n).map fun p => distmat X p.1 p.2

end NumpyKernel

section Middle
variable [Field R]

theorem getD_sorted {xs : List R} (hi : i < (sorted xs).length) :
    (sorted xs).getD i 0 = (sorted xs)[i] := by
  rw [List.getD_eq_getElem?_getD, List.getElem?_eq_getElem hi, Option.getD_some]

theorem middle_mem {xs : List R} (hne : xs ≠ []) :
    lowerMiddle xs ∈ xs ∧ upperMiddle xs ∈ xs := by
  have hpos := List.length_pos_of_ne_nil hne
  have hget (i : Nat) (hi : i < xs.length) : (sorted xs).getD i 0 ∈ xs := by
    rw [← length_sorted] at hi
    rw [getD_sorted hi, ← mem_sorted]
    exact List.getElem_mem hi
  exact ⟨hget _ (by omega), hget _ (by omega)⟩

theorem lowerMiddle_le {xs : List R} (hne : xs ≠ []) : lowerMiddle xs ≤ upperMiddle xs := by
  have hpos := List.length_pos_of_ne_nil hne
  have hlen := length_sorted xs
  have hsorted : (sorted xs).Pairwise (· ≤ ·) := List.pairwise_insertionSort (· ≤ ·) xs
  have hlo : (xs.length - 1) / 2 < (sorted xs).length := by omega
  have hup : xs.length / 2 < (sorted xs).length := by omega
  rw [lowerMiddle, upperMiddle, getD_sorted hlo, getD_sorted hup]
  obtain hlt | heq := Nat.lt_or_eq_of_le (show (xs.length - 1) / 2 ≤ xs.length / 2 by omega)
  · exact List.pairwise_iff_getElem.1 hsorted _ _ hlo hup hlt
  · exact le_of_eq (getElem_congr_idx heq)

theorem lowerMiddle_of_odd {xs : List R} (h : xs.length % 2 = 1) :
    lowerMiddle xs = upperMiddle xs := by
  rw [lowerMiddle, upperMiddle, show (xs.length - 1) / 2 = xs.length / 2 by omega]

variable [IsStrictOrderedRing R]

/-- The median of numpy is the mean of the two middle values, which may be one. -/
theorem npMedian_eq {xs : List R} (hne : xs ≠ []) :
    npMedian xs = (lowerMiddle xs + upperMiddle xs) / 2 := by
  have hpos := List.length_pos_of_ne_nil hne
  rw [npMedian]
  by_cases hodd : xs.length % 2 = 1
  · rw [if_pos hodd, lowerMiddle_of_odd hodd, ← two_mul, mul_div_cancel_left₀ _ two_ne_zero]
    rfl
  · rw [if_neg hodd, lowerMiddle, upperMiddle,
      show (xs.length - 1) / 2 = xs.length / 2 - 1 by omega]

end Middle

section Kernels
variable [Field R]

/-- The bandwidth with the median of torch. -/
def torchSigmaEst (flat : List R) : R :=
  let sigmaEst := if torchMedian flat ≤ 0 then flat.sum / flat.length else torchMedian flat
  if sigmaEst < 1 / 100 then 1 / 100 else sigmaEst

theorem npDistmat_eq (X : Matrix (Fin n) (Fin d) R) : npDistmat X = distmat X := by
  ext i j
  simp only [npDistmat, distmat, sq]

theorem distmat_nonneg (X : Matrix (Fin n) (Fin d) R) (i j : Fin n) : 0 ≤ distmat X i j :=
  le_max_right _ _

theorem pairDistances_ne_nil (hn : 2 ≤ n) (X : Matrix (Fin n) (Fin d) R) :
    pairDistances X ≠ [] := by
  have hmem : ((⟨0, by omega⟩, ⟨1, by omega⟩) : Fin n × Fin n) ∈ triuIndices n := by
    refine List.mem_flatMap.2 ⟨_, List.mem_finRange _, List.mem_map.2 ⟨_, ?_, rfl⟩⟩
    exact List.mem_filter.2 ⟨List.mem_finRange _, decide_eq_true (Nat.zero_lt_one)⟩
  exact List.ne_nil_of_mem (List.mem_map_of_mem hmem)

theorem npRbfKernel_none (exp : R → R) (X : Matrix (Fin n) (Fin d) R) :
    npRbfKernel exp none X = fun i j => exp (-distmat X i j /
      (2 * npSigmaEst (pairDistances X) * npSigmaEst (pairDistances X))) := by
  rw [npRbfKernel, npDistmat_eq]
  rfl

theorem torchRbfKernel_none (exp : R → R) (X : Matrix (Fin n) (Fin d) R) :
    torchRbfKernel exp none X = fun i j => exp (-distmat X i j /
      (2 * torchSigmaEst (pairDistances X) * torchSigmaEst (pairDistances X))) := rfl

end Kernels

section Agreement
variable [Field R]

/-- The two bandwidths are the same number: the two middle distances are equal, or neither median
gets over the floor, or the lower one is zero and the mean comes to the same as half the upper. -/
def BandwidthsAgree (flat : List R) : Prop :=
  lowerMiddle flat = upperMiddle flat ∨
    0 < lowerMiddle flat ∧ (lowerMiddle flat + upperMiddle flat) / 2 ≤ 1 / 100 ∨
    lowerMiddle flat = 0 ∧ max (mean flat) (1 / 100) = max (upperMiddle flat / 2) (1 / 100)

theorem floor_eq_max (x : R) : (if x < 1 / 100 then 1 / 100 else x) = max x (1 / 100) := by
  split
  case isTrue h => rw [max_eq_right h.le]
  case isFalse h => rw [max_eq_left (not_lt.1 h)]

variable [IsStrictOrderedRing R]

theorem max_half_eq_iff {a b : R} (hab : a < b) :
    max ((a + b) / 2) (1 / 100) = max a (1 / 100) ↔ (a + b) / 2 ≤ 1 / 100 := by
  have hmid : a < (a + b) / 2 := by linarith
  constructor
  · intro h
    by_contra hlt
    rw [not_le] at hlt
    rw [max_eq_left hlt.le] at h
    exact absurd h (ne_of_gt (max_lt hmid hlt))
  · intro h
    rw [max_eq_right h, max_eq_right (hmid.le.trans h)]

theorem sigmaEst_eq_iff {flat : List R} (hne : flat ≠ []) (hnonneg : ∀ x ∈ flat, 0 ≤ x) :
    npSigmaEst flat = torchSigmaEst flat ↔ BandwidthsAgree flat := by
  have hlo := hnonneg _ (middle_mem hne).1
  have hle := lowerMiddle_le hne
  have htorch : torchMedian flat = lowerMiddle flat := rfl
  rw [npSigmaEst, torchSigmaEst, npMedian_eq hne, htorch, floor_eq_max, floor_eq_max,
    BandwidthsAgree, mean]
  generalize lowerMiddle flat = a at hlo hle ⊢
  generalize upperMiddle flat = b at hle ⊢
  obtain rfl | hlt := hle.eq_or_lt
  · have hsame : (a + a) / 2 = a := by linarith
    rw [hsame]
    exact iff_of_true rfl (.inl rfl)
  · have hmid : ¬ (a + b) / 2 ≤ 0 := by linarith
    rw [if_neg hmid]
    obtain rfl | hpos := hlo.eq_or_lt
    · rw [if_pos le_rfl, zero_add]
      constructor
      · intro h
        exact .inr (.inr ⟨rfl, h.symm⟩)
      · rintro (h | ⟨h, -⟩ | ⟨-, h⟩)
        · exact absurd h hlt.ne
        · exact absurd h (lt_irrefl 0)
        · exact h.symm
    · rw [if_neg (not_le.2 hpos), max_half_eq_iff hlt]
      constructor
      · exact fun h => .inr (.inl ⟨hpos, h⟩)
      · rintro (h | ⟨-, h⟩ | ⟨h, -⟩)
        · exact absurd h hlt.ne
        · exact h
        · exact absurd h hpos.ne'

theorem torchSigmaEst_pos (flat : List R) : 0 < torchSigmaEst flat := by
  rw [torchSigmaEst, floor_eq_max]
  exact lt_max_of_lt_right (by norm_num)

theorem npSigmaEst_pos (flat : List R) : 0 < npSigmaEst flat := by
  rw [npSigmaEst, floor_eq_max]
  exact lt_max_of_lt_right (by norm_num)

/-- Two bandwidths give one value for a distance that is not zero only if they are equal. -/
theorem sigmaEst_injective {D s t : R} (hD : D ≠ 0) (hs : 0 < s) (ht : 0 < t)
    (h : -D / (2 * s * s) = -D / (2 * t * t)) : s = t := by
  have hs2 : 2 * s * s ≠ 0 := by positivity
  have ht2 : 2 * t * t ≠ 0 := by positivity
  rw [div_eq_div_iff hs2 ht2] at h
  have hsq := mul_left_cancel₀ (neg_ne_zero.2 hD) h
  have hmul : t * t = s * s := by linarith
  exact (mul_self_inj hs.le ht.le).1 hmul.symm

/-- The kernels agree for every exponential just where a bandwidth is given or the two medians
come to one bandwidth. -/
theorem rbfKernels_agree_iff (hn : 2 ≤ n) (X : Matrix (Fin n) (Fin d) R) (sigma : Option R)
    (hsigma : ∀ s ∈ sigma, 0 < s) :
    (∀ exp : R → R, torchRbfKernel exp sigma X = npRbfKernel exp sigma X) ↔
      sigma.isSome = true ∨ BandwidthsAgree (pairDistances X) := by
  cases sigma with
  | some s =>
    refine iff_of_true (fun exp => ?_) (.inl rfl)
    rw [npRbfKernel, npDistmat_eq]
    rfl
  | none =>
    have hne := pairDistances_ne_nil hn X
    have hnonneg : ∀ x ∈ pairDistances X, 0 ≤ x := by
      intro x hx
      obtain ⟨p, _, rfl⟩ := List.mem_map.1 hx
      exact distmat_nonneg X p.1 p.2
    rw [← sigmaEst_eq_iff hne hnonneg, or_iff_right (by simp)]
    constructor
    · intro h
      by_cases hzero : upperMiddle (pairDistances X) = 0
      · -- no distance tells the bandwidths apart, but then both medians are zero
        have hlo := le_antisymm ((lowerMiddle_le hne).trans hzero.le) (hnonneg _ (middle_mem hne).1)
        exact (sigmaEst_eq_iff hne hnonneg).2 (.inl (hlo.trans hzero.symm))
      · obtain ⟨p, _, hp⟩ := List.mem_map.1 (middle_mem hne).2
        have hD : distmat X p.1 p.2 ≠ 0 := hp ▸ hzero
        have hentry := congrFun (congrFun (h id) p.1) p.2
        rw [torchRbfKernel_none, npRbfKernel_none] at hentry
        exact (sigmaEst_injective hD (torchSigmaEst_pos _) (npSigmaEst_pos _) hentry).symm
    · intro h exp
      rw [torchRbfKernel_none, npRbfKernel_none, h]

end Agreement

section Points

/-- Three points on a line, of distances 1, 9 and 4. -/
def threePoints : Matrix (Fin 3) (Fin 1) ℚ := fun i _ => ![0, 1, 3] i

theorem rbfKernels_agree_iff_threePoints : BandwidthsAgree (pairDistances threePoints) ∧
    ∀ exp : ℚ → ℚ, torchRbfKernel exp none threePoints = npRbfKernel exp none threePoints := by
  have hagree : BandwidthsAgree (pairDistances threePoints) :=
    .inl (lowerMiddle_of_odd (by decide +kernel))
  exact ⟨hagree, (rbfKernels_agree_iff (by decide) threePoints none (by simp)).2 (.inr hagree)⟩

/-- Four points on a line, of distances 1, 9, 49, 4, 36 and 16, whose middle ones are 9 and 16. -/
def fourPoints : Matrix (Fin 4) (Fin 1) ℚ := fun i _ => ![0, 1, 3, 7] i

theorem rbfKernels_differ_fourPoints :
    torchRbfKernel id none fourPoints ≠ npRbfKernel id none fourPoints := by
  intro h
  have hentry := congrFun (congrFun h 0) 1
  exact absurd hentry (by decide +kernel)

end Points

end Heuristic

end ActQuant.Hsic
