import ActQuant.Pi05.PrefixCache
import Mathlib.Tactic.Ring

namespace ActQuant.Pi05
open ActQuant.Lib

/-- The cameras of a call; there is no field for the right wrist. -/
structure ImageInputs where
  basePath : String
  wristPath : String
  baseData : Option (List UInt8)
  wristData : Option (List UInt8)
  width : Int
  height : Int

def ImageInputs.hasWrist (images : ImageInputs) : Bool :=
  images.wristPath ≠ "" || images.wristData.isSome

def ImageInputs.hasBase (images : ImageInputs) : Bool :=
  images.basePath ≠ "" || images.baseData.isSome

/-- The vision encoder, the tokenizer and the text embedding of the model. -/
structure Encoders where
  encodePath : String → Option Embedding
  encodeData : List UInt8 → Int → Int → Option Embedding
  tokenizePrompt : String → List Nat
  embedToken : Nat → Nat → UInt32

structure PrefixResult where
  prefixTokens : Embedding
  nImages : Nat
  nVisionTokens : Nat
  nTextTokens : Nat
  maskedStart : Int
  maskedEnd : Int

def tokensPerImage : Nat := 256

/-- The constant of `run`, which its zero embeddings are made with. -/
def paliHiddenSize : Nat := 2048

def getTextEmbeddings (V : Encoders) (hiddenSize : Nat) (tokens : List Nat) : Embedding :=
  tokens.flatMap fun token => (List.range hiddenSize).map (V.embedToken token)

/-- The text embedding and the expert share PaliGemma's hidden size. -/
def embedPrefix (V : Encoders) (hiddenSize : Nat) (visionEmbedsList : List Embedding)
    (tokens : List Nat) (maskedImageIdx : Int) : Except String PrefixResult :=
  let expectedSize := tokensPerImage * hiddenSize
  match visionEmbedsList.find? fun e => e.length ≠ expectedSize with
  | some e => .error ("Vision embedding size mismatch: got " ++ toString e.length ++
      ", expected " ++ toString expectedSize)
  | none =>
    let nImages := visionEmbedsList.length
    let masked := 0 ≤ maskedImageIdx ∧ maskedImageIdx < nImages
    .ok {
      prefixTokens := visionEmbedsList.flatten ++ getTextEmbeddings V hiddenSize tokens
      nImages
      nVisionTokens := nImages * tokensPerImage
      nTextTokens := tokens.length
      maskedStart := if masked then maskedImageIdx * tokensPerImage else -1
      maskedEnd := if masked then maskedImageIdx * tokensPerImage + tokensPerImage else -1 }

def zeroEmbeds : Embedding := List.replicate (tokensPerImage * paliHiddenSize) 0

def encodeBase (V : Encoders) (images : ImageInputs) : Option Embedding :=
  if images.basePath ≠ "" then V.encodePath images.basePath
  else images.baseData.bind fun data => V.encodeData data images.width images.height

def encodeLeftWrist (V : Encoders) (images : ImageInputs) : Option Embedding :=
  if images.hasWrist then
    if images.wristPath ≠ "" then V.encodePath images.wristPath
    else images.wristData.bind fun data => V.encodeData data images.width images.height
  else some zeroEmbeds

def rightWristImageIdx : Int := 2

/-- `run` up to the request its actions are sampled for; without one it has returned false. -/
def runImages (V : Encoders) (hiddenSize : Nat) (images : ImageInputs) (prompt : String) :
    Except String (Option Request) :=
  match encodeBase V images, encodeLeftWrist V images with
  | some base, some left => do
    let r ← embedPrefix V hiddenSize [base, left, zeroEmbeds] (V.tokenizePrompt prompt)
      rightWristImageIdx
    return some ⟨r.prefixTokens, r.maskedStart, r.maskedEnd⟩
  | _, _ => .ok none

/-- The mask of the prefix's self-attention: `compute_kv_cache` passes no range on. -/
def Request.prefixAttnMask (P : Expert KV) (r : Request) : List MaskValue :=
  fillPrefixAttnMask (r.nPrefix P) (-1) (-1)

def Request.suffixEntry (P : Expert KV) (r : Request) (i j : Nat) : Option MaskValue :=
  (maskRow (r.attnMask P) (r.nPrefix P + P.actionHorizon) i)[j]?

def Request.prefixEntry (P : Expert KV) (r : Request) (i j : Nat) : Option MaskValue :=
  (maskRow (r.prefixAttnMask P) (r.nPrefix P) i)[j]?

inductive TokenSource where
  | base | leftWrist | rightWrist | prompt
  deriving DecidableEq

/-- Where a prefix token comes from, by the order the embeddings are concatenated in. -/
def tokenSource (j : Nat) : TokenSource :=
  if j < tokensPerImage then .base
  else if j < 2 * tokensPerImage then .leftWrist
  else if j < 3 * tokensPerImage then .rightWrist
  else .prompt

def ImageInputs.supplies (images : ImageInputs) : TokenSource → Bool
  | .base => images.hasBase
  | .leftWrist => images.hasWrist
  | .rightWrist => false
  | .prompt => true

/-- The tokens of placeholders are masked in both masks, and those supplied in neither. -/
def PlaceholdersMasked (P : Expert KV) (images : ImageInputs) (r : Request) : Prop :=
  ∀ j < r.nPrefix P,
    let value : MaskValue := if images.supplies (tokenSource j) then .zero else .negInf
    (∀ i < P.actionHorizon, r.suffixEntry P i j = some value) ∧
      ∀ i < r.nPrefix P, r.prefixEntry P i j = some value

section Masked
variable {KV : Type} {V : Encoders} {P : Expert KV} {images : ImageInputs} {r : Request}

theorem encodeBase_none (h : images.hasBase = false) : encodeBase V images = none := by
  rw [ImageInputs.hasBase, Bool.or_eq_false_iff, decide_eq_false_iff_not, not_not,
    Option.isSome_eq_false_iff, Option.isNone_iff_eq_none] at h
  rw [encodeBase, if_neg (not_not.2 h.1), h.2]
  rfl

/-- The parts of the prefix, each embedding being 256 tokens long. -/
structure Layout (V : Encoders) (images : ImageInputs) (prompt : String) (hiddenSize : Nat)
    (r : Request) (base left : Embedding) : Prop where
  base_eq : encodeBase V images = some base
  left_eq : encodeLeftWrist V images = some left
  base_length : base.length = tokensPerImage * hiddenSize
  left_length : left.length = tokensPerImage * hiddenSize
  hiddenSize_eq : hiddenSize = paliHiddenSize
  prefixHidden : r.prefixHidden =
    base ++ (left ++ (zeroEmbeds ++ getTextEmbeddings V hiddenSize (V.tokenizePrompt prompt)))
  maskedStart : r.maskedStart = 2 * tokensPerImage
  maskedEnd : r.maskedEnd = 3 * tokensPerImage

theorem embedPrefix_ok (h : embedPrefix V hiddenSize embeds tokens idx = .ok result) :
    (∀ e ∈ embeds, e.length = tokensPerImage * hiddenSize) ∧
      result.prefixTokens = embeds.flatten ++ getTextEmbeddings V hiddenSize tokens ∧
      (0 ≤ idx → idx < embeds.length → result.maskedStart = idx * tokensPerImage ∧
        result.maskedEnd = idx * tokensPerImage + tokensPerImage) := by
  rw [embedPrefix] at h
  cases hfind : embeds.find? fun e => e.length ≠ tokensPerImage * hiddenSize with
  | some e =>
    rw [hfind] at h
    cases h
  | none =>
    rw [hfind] at h
    cases h
    refine ⟨fun e he => ?_, rfl, fun h₀ h₁ => ⟨if_pos ⟨h₀, h₁⟩, if_pos ⟨h₀, h₁⟩⟩⟩
    have hsize := List.find?_eq_none.1 hfind e he
    simpa only [decide_eq_true_eq, not_not] using hsize

theorem embedPrefix_of_sizes (h : ∀ e ∈ embeds, e.length = tokensPerImage * hiddenSize) :
    ∃ result, embedPrefix V hiddenSize embeds tokens idx = .ok result := by
  have hfind : (embeds.find? fun e => e.length ≠ tokensPerImage * hiddenSize) = none := by
    refine List.find?_eq_none.2 fun e he => ?_
    rw [h e he, decide_eq_true_eq, not_not]
  rw [embedPrefix, hfind]
  exact ⟨_, rfl⟩

theorem runImages_layout (h : runImages V hiddenSize images prompt = .ok (some r)) :
    ∃ base left, Layout V images prompt hiddenSize r base left := by
  rw [runImages] at h
  cases hbase : encodeBase V images with
  | none =>
    rw [hbase] at h
    cases h
  | some base =>
    cases hleft : encodeLeftWrist V images with
    | none =>
      rw [hbase, hleft] at h
      cases h
    | some left =>
      simp only [hbase, hleft] at h
      cases hembed : embedPrefix V hiddenSize [base, left, zeroEmbeds] (V.tokenizePrompt prompt)
          rightWristImageIdx with
      | error e =>
        rw [hembed] at h
        cases h
      | ok result =>
        rw [hembed] at h
        cases h
        obtain ⟨hsizes, htokens, hrange⟩ := embedPrefix_ok hembed
        obtain ⟨hstart, hend⟩ := hrange (by decide) (by simp [rightWristImageIdx])
        have hzero := hsizes zeroEmbeds (by simp)
        rw [zeroEmbeds, List.length_replicate] at hzero
        refine ⟨base, left, hbase, hleft, hsizes base (by simp), hsizes left (by simp), ?_, ?_, ?_,
          ?_⟩
        · exact (Nat.eq_of_mul_eq_mul_left (by decide) hzero).symm
        · simp only [htokens, List.flatten_cons, List.flatten_nil, List.append_nil,
            List.append_assoc]
        · rw [hstart]
          rfl
        · rw [hend]
          rfl

theorem length_getTextEmbeddings (tokens : List Nat) :
    (getTextEmbeddings V hiddenSize tokens).length = tokens.length * hiddenSize := by
  rw [getTextEmbeddings, List.length_flatMap]
  simp only [List.length_map, List.length_range, List.map_const', List.sum_replicate_nat]

theorem Layout.nPrefix_eq (h : Layout V images prompt P.paliHiddenSize r base left) :
    r.nPrefix P = 3 * tokensPerImage + (V.tokenizePrompt prompt).length := by
  have hlen : r.prefixHidden.length =
      (3 * tokensPerImage + (V.tokenizePrompt prompt).length) * P.paliHiddenSize := by
    simp only [h.prefixHidden, List.length_append, h.base_length, h.left_length,
      length_getTextEmbeddings, zeroEmbeds, List.length_replicate, ← h.hiddenSize_eq]
    ring
  rw [Request.nPrefix, hlen, Nat.mul_div_cancel]
  rw [h.hiddenSize_eq]
  decide

theorem suffixEntry_eq (hi : i < P.actionHorizon) (hj : j < r.nPrefix P) :
    r.suffixEntry P i j =
      some (if 0 ≤ r.maskedStart ∧ r.maskedStart ≤ j ∧ j < r.maskedEnd then .negInf
        else .zero) := by
  rw [Request.suffixEntry, Request.attnMask, fillSuffixAttnMask, maskRow_fillMask hi,
    List.getElem?_map, List.getElem?_range (by omega), Option.map_some]

theorem prefixEntry_eq (hi : i < r.nPrefix P) (hj : j < r.nPrefix P) :
    r.prefixEntry P i j = some .zero := by
  rw [Request.prefixEntry, Request.prefixAttnMask, maskRow_prefix hi, List.getElem?_replicate,
    if_pos hj]

/-- The right wrist's tokens are those between two and three images. -/
theorem tokenSource_eq_rightWrist :
    tokenSource j = .rightWrist ↔ 2 * tokensPerImage ≤ j ∧ j < 3 * tokensPerImage := by
  rw [tokenSource]
  split_ifs <;> simp <;> omega

/-- The right wrist's placeholder is masked for the suffix, what is supplied is not, and the
prefix's self-attention masks nothing. -/
theorem rightWrist_masked (V : Encoders) (P : Expert KV) (images : ImageInputs) (prompt : String) :
    (images.hasBase = false → runImages V P.paliHiddenSize images prompt = .ok none) ∧
      ∀ r, runImages V P.paliHiddenSize images prompt = .ok (some r) →
        (∃ base left, Layout V images prompt P.paliHiddenSize r base left) ∧
          ∀ j < r.nPrefix P,
            (tokenSource j = .rightWrist →
              ∀ i < P.actionHorizon, r.suffixEntry P i j = some .negInf) ∧
            (images.supplies (tokenSource j) →
              ∀ i < P.actionHorizon, r.suffixEntry P i j = some .zero) ∧
            ∀ i < r.nPrefix P, r.prefixEntry P i j = some .zero := by
  refine ⟨fun hbase => ?_, fun r h => ?_⟩
  · rw [runImages, encodeBase_none hbase]
  · obtain ⟨base, left, hlayout⟩ := runImages_layout h
    have hmasked (j : Nat) : (0 ≤ r.maskedStart ∧ r.maskedStart ≤ j ∧ j < r.maskedEnd) ↔
        tokenSource j = .rightWrist := by
      rw [hlayout.maskedStart, hlayout.maskedEnd, tokenSource_eq_rightWrist]
      omega
    refine ⟨⟨base, left, hlayout⟩, fun j hj => ⟨fun hright i hi => ?_, fun hsupplied i hi => ?_,
      fun i hi => prefixEntry_eq hi hj⟩⟩
    · rw [suffixEntry_eq hi hj, if_pos ((hmasked j).2 hright)]
    · rw [suffixEntry_eq hi hj, if_neg]
      intro hm
      rw [(hmasked j).1 hm] at hsupplied
      cases hsupplied

end Masked

section Instances

/-- Encoders whose embeddings have the size of PaliGemma's. -/
def constEncoders : Encoders where
  encodePath _ := some zeroEmbeds
  encodeData _ _ _ := some zeroEmbeds
  tokenizePrompt _ := [2, 108]
  embedToken token _ := token.toUInt32

def constExpert : Expert Embedding := ⟨paliHiddenSize, 1, id⟩

/-- A call that gives the base camera only. -/
def baseOnly : ImageInputs := ⟨"base.png", "", none, none, 0, 0⟩

theorem runImages_baseOnly :
    ∃ r, runImages constEncoders constExpert.paliHiddenSize baseOnly "" = .ok (some r) := by
  obtain ⟨result, hresult⟩ : ∃ result, embedPrefix constEncoders constExpert.paliHiddenSize
      [zeroEmbeds, zeroEmbeds, zeroEmbeds] [2, 108] rightWristImageIdx = .ok result := by
    refine embedPrefix_of_sizes fun e he => ?_
    have hzero : e = zeroEmbeds := by simpa using he
    rw [hzero, zeroEmbeds, List.length_replicate, constExpert]
  have hbase : encodeBase constEncoders baseOnly = some zeroEmbeds := rfl
  have hleft : encodeLeftWrist constEncoders baseOnly = some zeroEmbeds := rfl
  refine ⟨⟨result.prefixTokens, result.maskedStart, result.maskedEnd⟩, ?_⟩
  have htokens : constEncoders.tokenizePrompt "" = [2, 108] := rfl
  simp only [runImages, hbase, hleft, htokens, hresult]
  rfl

theorem rightWrist_masked_baseOnly :
    ∃ r, runImages constEncoders constExpert.paliHiddenSize baseOnly "" = .ok (some r) ∧
      600 < r.nPrefix constExpert ∧ r.suffixEntry constExpert 0 600 = some .negInf := by
  obtain ⟨r, hr⟩ := runImages_baseOnly
  have hmasked := (rightWrist_masked constEncoders constExpert baseOnly "").2 r hr
  obtain ⟨⟨base, left, hlayout⟩, htokens⟩ := hmasked
  have hlen : 600 < r.nPrefix constExpert := by
    rw [hlayout.nPrefix_eq]
    decide
  exact ⟨r, hr, hlen, (htokens 600 hlen).1 (by decide) 0 (by decide)⟩

/-- The prefix attends to the right wrist's placeholder, as its mask is meant to mask nothing, and
the suffix to the placeholder of a left wrist that is not given, whose range is forgotten. -/
theorem not_placeholdersMasked_baseOnly :
    ∃ r, runImages constEncoders constExpert.paliHiddenSize baseOnly "" = .ok (some r) ∧
      600 < r.nPrefix constExpert ∧ tokenSource 600 = .rightWrist ∧
      r.prefixEntry constExpert 0 600 = some .zero ∧
      r.suffixEntry constExpert 0 256 = some .zero ∧
      ¬ PlaceholdersMasked constExpert baseOnly r := by
  obtain ⟨r, hr⟩ := runImages_baseOnly
  obtain ⟨base, left, hlayout⟩ := runImages_layout hr
  have hlen : 600 < r.nPrefix constExpert := by
    rw [Layout.nPrefix_eq (P := constExpert) hlayout]
    decide
  have hpali : r.prefixEntry constExpert 0 600 = some .zero := prefixEntry_eq (by omega) hlen
  have hsuffix : r.suffixEntry constExpert 0 256 = some .zero := by
    rw [suffixEntry_eq (by decide) (by omega), hlayout.maskedStart, hlayout.maskedEnd]
    decide
  refine ⟨r, hr, hlen, by decide, hpali, hsuffix, fun h => ?_⟩
  have hentry := (h 600 hlen).2 0 (by omega)
  rw [hpali] at hentry
  exact absurd hentry (by decide)

end Instances
end ActQuant.Pi05
