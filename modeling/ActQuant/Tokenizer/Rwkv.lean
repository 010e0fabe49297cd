import ActQuant.Lib.Run
import ActQuant.Lib.Trie
import Mathlib.Order.Nat

namespace ActQuant.Tokenizer.Rwkv
open ActQuant.Lib

/-! Tokenization with a vocabulary of byte strings, numbered in their order. -/

/-- A text whose length fits in an `int32_t`, as callers pass it, so that no position overflows. -/
structure Text where
  bytes : List UInt8
  length_lt : bytes.length < 2 ^ 31

/-- `token_matcher`, as the constructor builds it. -/
def tokenMatcher (tokens : List (List UInt8)) : Trie UInt8 Nat := .ofList tokens.zipIdx

/-- `text[i]`: the byte after the last one is zero, and beyond it nothing may be read. -/
def charAt (text : List UInt8) (i : Nat) : Option UInt8 :=
  if i < text.length then text[i]? else if i = text.length then some 0 else none

mutual

/-- The inner loop at a node, for the byte at a position: the longest token so far and where it
ends. There is no result where the text is read out of bounds. -/
def longestFrom (text : List UInt8) : Trie UInt8 Nat → Nat → Nat × Nat → Option (Nat × Nat)
  | .node children value, position, best =>
    let best := value.elim best fun v => (v, position + 1)
    (charAt text (position + 1)).bind fun c =>
      longestAt text (children c) (position + 1) best

def longestAt (text : List UInt8) : Option (Trie UInt8 Nat) → Nat → Nat × Nat →
    Option (Nat × Nat)
  | none, _, best => some best
  | some node, position, best => longestFrom text node position best

end

/-- What is known of a call: it has read out of bounds, or it has returned these tokens. -/
inductive Outcome where
  | outOfBounds
  | returned (output : List Int)
  deriving DecidableEq

/-- One turn of the outer loop: the token, and the position after it. -/
def turn (matcher : Trie UInt8 Nat) (unk : Int) (text : List UInt8) (position : Nat) :
    Option (Int × Nat) :=
  (charAt text position).bind fun c =>
    (matcher.traverse c).elim (some (unk, position + 1)) fun node =>
      (longestFrom text node position (0, 0)).map fun best => (best.1, best.2)

/-- `tokenize`, with fuel for the turns. -/
def tokenize (matcher : Trie UInt8 Nat) (unk : Int) (text : List UInt8) :
    Nat → Nat → List Int → Option Outcome
  | 0, _, _ => none
  | fuel + 1, position, output =>
    if position < text.length then
      match turn matcher unk text position with
      | none => some .outOfBounds
      | some (token, position) => tokenize matcher unk text fuel position (output ++ [token])
    else some (.returned output)

/-- The longest token at the beginning of what is left of a text. -/
structure Longest (tokens : List (List UInt8)) (rest w : List UInt8) : Prop where
  mem : w ∈ tokens
  ne_nil : w ≠ []
  isPrefix : w <+: rest
  longest : ∀ w' ∈ tokens, w' <+: rest → w'.length ≤ w.length

/-- No token is at the beginning of what is left. -/
def Unmatched (tokens : List (List UInt8)) (rest : List UInt8) : Prop :=
  ∀ w ∈ tokens, w ≠ [] → ¬ w <+: rest

/-- The tokens of a text as they should be: the longest one at each position, or the unknown one
for a byte. -/
inductive Segments (tokens : List (List UInt8)) (unk : Int) : List UInt8 → List Int → Prop where
  | nil : Segments tokens unk [] []
  | token {i : Nat} (hw : Longest tokens (w ++ rest) w) (hi : tokens[i]? = some w)
      (h : Segments tokens unk rest output) : Segments tokens unk (w ++ rest) (i :: output)
  | unknown (hno : Unmatched tokens (b :: rest)) (h : Segments tokens unk rest output) :
      Segments tokens unk (b :: rest) (unk :: output)

/-- What is left of a text at the positions that the longest tokens lead to. -/
inductive Boundary (tokens : List (List UInt8)) (text : List UInt8) : List UInt8 → Prop where
  | start : Boundary tokens text text
  | token (h : Boundary tokens text (w ++ rest)) (hw : Longest tokens (w ++ rest) w) :
      Boundary tokens text rest
  | unknown (h : Boundary tokens text (b :: rest)) (hno : Unmatched tokens (b :: rest)) :
      Boundary tokens text rest

/-- What is left of a text can be matched: if it begins like a token then with a whole one, and no
token goes on over its end with a zero byte. -/
structure Matchable (tokens : List (List UInt8)) (rest : List UInt8) : Prop where
  whole : ∀ w ∈ tokens, ∀ c ∈ rest.head?, w.head? = some c → ¬ Unmatched tokens rest
  inside : ∀ w ∈ tokens, ¬ rest ++ [0] <+: w

section Inner
variable {matcher node : Trie UInt8 Nat} {pre u v : List UInt8} {best : Nat × Nat}

theorem charAt_append_cons (pre : List UInt8) (c : UInt8) (v : List UInt8) :
    charAt (pre ++ c :: v) pre.length = some c := by
  have hlt : pre.length < (pre ++ c :: v).length := by
    rw [List.length_append, List.length_cons]
    omega
  rw [charAt, if_pos hlt, List.getElem?_append_right le_rfl, Nat.sub_self]
  rfl

theorem charAt_length (text : List UInt8) : charAt text text.length = some 0 := by
  rw [charAt, if_neg (Nat.lt_irrefl _), if_pos rfl]

theorem charAt_beyond (text : List UInt8) : charAt text (text.length + 1) = none := by
  rw [charAt, if_neg (by omega), if_neg (by omega)]

theorem longestFrom_eq (text : List UInt8) (node : Trie UInt8 Nat) (position : Nat)
    (best : Nat × Nat) :
    longestFrom text node position best =
      (charAt text (position + 1)).bind fun c => longestAt text (node.traverse c) (position + 1)
        (node.value.elim best fun v => (v, position + 1)) := by
  cases node
  rw [longestFrom]
  rfl

theorem longestAt_none (text : List UInt8) (position : Nat) (best : Nat × Nat) :
    longestAt text none position best = some best := by
  rw [longestAt]

theorem longestAt_some (text : List UInt8) (node : Trie UInt8 Nat) (position : Nat)
    (best : Nat × Nat) :
    longestAt text (some node) position best = longestFrom text node position best := by
  rw [longestAt]

/-- Where a token goes on over the end of the text, the walk reads beyond it. -/
theorem longestFrom_eq_none (hu : matcher.walk u = some node)
    (hpos : position + 1 = (pre ++ u).length) (h : matcher.Reaches (u ++ v ++ [0])) :
    longestFrom (pre ++ u ++ v) node position best = none := by
  induction v generalizing u node position best with
  | nil =>
    rw [List.append_nil] at h ⊢
    rw [Trie.Reaches, ← Trie.traverse_of_walk hu] at h
    obtain ⟨t, ht⟩ := Option.isSome_iff_exists.1 h
    rw [longestFrom_eq, hpos, charAt_length, Option.bind_some, ht, longestAt_some,
      longestFrom_eq, charAt_beyond, Option.bind_none]
  | cons c v ih =>
    have happ := List.append_cons u c v
    have htext : pre ++ u ++ c :: v = pre ++ (u ++ [c]) ++ v := by
      simp only [List.append_assoc, List.singleton_append]
    rw [happ] at h
    have hreach : matcher.Reaches (u ++ [c]) := by
      rw [List.append_assoc] at h
      exact h.of_prefix
    obtain ⟨t, ht⟩ := Option.isSome_iff_exists.1 hreach
    rw [longestFrom_eq, hpos, charAt_append_cons, Option.bind_some, Trie.traverse_of_walk hu,
      ht, longestAt_some, htext]
    apply ih ht _ h
    rw [← List.append_assoc, @List.length_append _ (pre ++ u), List.length_singleton]

/-- What a walk that goes on over `v` ends with: the longest of the tokens on its way, or the one
found before where there is none. -/
def EndsWith (matcher : Trie UInt8 Nat) (pre u v : List UInt8) (best best' : Nat × Nat) : Prop :=
  (∃ w, w <+: v ∧ matcher.get? (u ++ w) = some best'.1 ∧ best'.2 = (pre ++ u ++ w).length ∧
    ∀ w', w' <+: v → (matcher.get? (u ++ w')).isSome → w'.length ≤ w.length) ∨
  best' = best ∧ ∀ w', w' <+: v → matcher.get? (u ++ w') = none

/-- No token goes on from a node: the one of the node itself is the longest, if it has one. -/
theorem endsWith_here (hu : matcher.walk u = some node) (pre : List UInt8) (best : Nat × Nat)
    (h : ∀ w', w' <+: v → w' ≠ [] → matcher.get? (u ++ w') = none) :
    EndsWith matcher pre u v best
      (node.value.elim best fun v => (v, (pre ++ u).length)) := by
  have hget : matcher.get? (u ++ []) = node.value := by
    rw [List.append_nil, Trie.get?, hu, Option.bind_some]
  cases hv : node.value with
  | none =>
    refine .inr ⟨rfl, fun w' hw' => ?_⟩
    by_cases hw : w' = []
    · rw [hw, hget, hv]
    · exact h w' hw' hw
  | some x =>
    refine .inl ⟨[], List.nil_prefix, hget.trans hv, ?_, fun w' hw' hsome => ?_⟩
    · rw [List.append_nil]
      rfl
    · by_cases hw : w' = []
      · rw [hw]
      · rw [h w' hw' hw] at hsome
        cases hsome

theorem longestFrom_spec (hu : matcher.walk u = some node)
    (hpos : position + 1 = (pre ++ u).length) (h : ¬ matcher.Reaches (u ++ v ++ [0])) :
    ∃ best', longestFrom (pre ++ u ++ v) node position best = some best' ∧
      EndsWith matcher pre u v best best' := by
  induction v generalizing u node position best with
  | nil =>
    rw [List.append_nil] at h ⊢
    have hnone : node.traverse 0 = none := by
      rw [Trie.Reaches, ← Trie.traverse_of_walk hu, Bool.not_eq_true, Option.isSome_eq_false_iff,
        Option.isNone_iff_eq_none] at h
      exact h
    refine ⟨_, ?_, endsWith_here hu pre best fun w' hw' hne => ?_⟩
    · rw [longestFrom_eq, hpos, charAt_length, Option.bind_some, hnone, longestAt_none]
    · exact absurd (List.prefix_nil.1 hw') hne
  | cons c v ih =>
    have happ := List.append_cons u c v
    have htext : pre ++ u ++ c :: v = pre ++ (u ++ [c]) ++ v := by
      simp only [List.append_assoc, List.singleton_append]
    have hcons (w : List UInt8) := List.append_cons u c w
    rw [longestFrom_eq, hpos, charAt_append_cons, Option.bind_some, Trie.traverse_of_walk hu]
    cases ht : matcher.walk (u ++ [c]) with
    | none =>
      rw [longestAt_none]
      refine ⟨_, rfl, endsWith_here hu pre best fun w' hw' hne => ?_⟩
      rcases List.prefix_cons_iff.1 hw' with rfl | ⟨w, rfl, _⟩
      · exact absurd rfl hne
      · rw [hcons, Trie.get?, Trie.walk_append, ht]
        rfl
    | some t =>
      rw [longestAt_some, htext]
      rw [happ] at h
      have hpos' : (pre ++ u).length + 1 = (pre ++ (u ++ [c])).length := by
        rw [← List.append_assoc, @List.length_append _ (pre ++ u), List.length_singleton]
      obtain ⟨best', heq, hends⟩ := ih ht hpos' h
      refine ⟨best', heq, ?_⟩
      rcases hends with ⟨w, hw, hget, hlen, hlong⟩ | ⟨rfl, hnone⟩
      · refine .inl ⟨c :: w, (List.prefix_cons_inj c).2 hw, by rw [hcons, hget], ?_, ?_⟩
        · rw [hlen]
          simp only [List.append_assoc, List.singleton_append]
        · intro w' hw' hsome
          rcases List.prefix_cons_iff.1 hw' with rfl | ⟨w'', rfl, hw''⟩
          · exact Nat.zero_le _
          · rw [hcons] at hsome
            exact Nat.succ_le_succ (hlong w'' hw'' hsome)
      · apply endsWith_here hu pre best
        intro w' hw' hne
        rcases List.prefix_cons_iff.1 hw' with rfl | ⟨w'', rfl, hw''⟩
        · exact absurd rfl hne
        · rw [hcons]
          exact hnone w'' hw''

end Inner

section Turn
variable {tokens : List (List UInt8)} {pre rest : List UInt8}

theorem reaches_tokenMatcher {w : List UInt8} (hw : w ≠ []) :
    (tokenMatcher tokens).Reaches w ↔ ∃ t ∈ tokens, w <+: t := by
  rw [tokenMatcher, Trie.reaches_ofList]
  constructor
  · rintro (h | ⟨x, hx, hpre⟩)
    · exact absurd h hw
    · exact ⟨x.1, List.fst_mem_of_mem_zipIdx hx, hpre⟩
  · rintro ⟨t, ht, hpre⟩
    obtain ⟨i, hi⟩ := List.mem_iff_getElem?.1 ht
    exact .inr ⟨(t, i), List.mem_zipIdx_iff_getElem?.2 hi, hpre⟩

theorem getElem?_of_get? {w : List UInt8} (h : (tokenMatcher tokens).get? w = some i) :
    tokens[i]? = some w :=
  List.mem_zipIdx_iff_getElem?.1 (Trie.mem_of_get?_ofList h)

theorem get?_isSome {w : List UInt8} (hw : w ∈ tokens) :
    ((tokenMatcher tokens).get? w).isSome := by
  obtain ⟨i, hi⟩ := List.mem_iff_getElem?.1 hw
  exact Trie.get?_ofList_isSome (v := i) (List.mem_zipIdx_iff_getElem?.2 hi)

theorem singleton_prefix_iff {b : UInt8} {t : List UInt8} : [b] <+: t ↔ t.head? = some b := by
  cases t with
  | nil => simp
  | cons c t => simp [eq_comm]

/-- A turn at the beginning of what is left, by the first step of its walk. -/
theorem turn_eq (matcher : Trie UInt8 Nat) (unk : Int) (pre : List UInt8) (b : UInt8)
    (v : List UInt8) :
    turn matcher unk (pre ++ b :: v) pre.length =
      (matcher.walk [b]).elim (some (unk, pre.length + 1)) fun node =>
        (longestFrom (pre ++ b :: v) node pre.length (0, 0)).map
          fun best => ((best.1 : Int), best.2) := by
  rw [turn, charAt_append_cons, Option.bind_some, Trie.walk_singleton]

theorem turn_of_unstarted (h : ∀ t ∈ tokens, t.head? ≠ some b) (unk : Int) (pre v : List UInt8) :
    turn (tokenMatcher tokens) unk (pre ++ b :: v) pre.length = some (unk, pre.length + 1) := by
  have hnone : (tokenMatcher tokens).walk [b] = none := by
    rw [← Option.not_isSome_iff_eq_none]
    intro hsome
    obtain ⟨t, ht, hpre⟩ := (reaches_tokenMatcher (List.cons_ne_nil b [])).1 hsome
    exact h t ht (singleton_prefix_iff.1 hpre)
  rw [turn_eq, hnone, Option.elim_none]

theorem exists_walk (ht : t ∈ tokens) (h : t.head? = some b) :
    ∃ node, (tokenMatcher tokens).walk [b] = some node :=
  Option.isSome_iff_exists.1
    ((reaches_tokenMatcher (List.cons_ne_nil b [])).2 ⟨t, ht, singleton_prefix_iff.2 h⟩)

/-- A token that goes on over the end of the text takes the walk out of it. -/
theorem turn_eq_none (ht : t ∈ tokens) (h : rest ++ [0] <+: t) (hne : rest ≠ []) (unk : Int)
    (pre : List UInt8) : turn (tokenMatcher tokens) unk (pre ++ rest) pre.length = none := by
  obtain ⟨b, v, rfl⟩ := List.exists_cons_of_ne_nil hne
  have hhead : t.head? = some b := by
    obtain ⟨tail, rfl⟩ := h
    rfl
  obtain ⟨node, hnode⟩ := exists_walk ht hhead
  have hreach : (tokenMatcher tokens).Reaches ([b] ++ v ++ [0]) :=
    (reaches_tokenMatcher (List.cons_ne_nil _ _)).2 ⟨t, ht, h⟩
  have hout : longestFrom (pre ++ [b] ++ v) node pre.length (0, 0) = none := by
    apply longestFrom_eq_none hnode _ hreach
    rw [List.length_append, List.length_singleton]
  rw [List.append_assoc] at hout
  rw [turn_eq, hnode, Option.elim_some]
  exact congrArg (Option.map _) hout

/-- A turn where some token begins as what is left does, and none goes on over its end. -/
theorem turn_of_started (ht : t ∈ tokens) (hhead : t.head? = some b)
    (hin : ∀ w ∈ tokens, ¬ b :: v ++ [0] <+: w) (unk : Int) (pre : List UInt8) :
    (∃ (w tail : List UInt8) (i : Nat), b :: v = w ++ tail ∧ Longest tokens (b :: v) w ∧
        tokens[i]? = some w ∧
        turn (tokenMatcher tokens) unk (pre ++ b :: v) pre.length =
          some ((i : Int), (pre ++ w).length)) ∨
      Unmatched tokens (b :: v) ∧
        turn (tokenMatcher tokens) unk (pre ++ b :: v) pre.length = some (0, 0) := by
  obtain ⟨node, hnode⟩ := exists_walk ht hhead
  have hreach : ¬ (tokenMatcher tokens).Reaches ([b] ++ v ++ [0]) := by
    intro h
    obtain ⟨w, hw, hpre⟩ := (reaches_tokenMatcher (List.cons_ne_nil _ _)).1 h
    exact hin w hw hpre
  obtain ⟨best, heq, hends⟩ : ∃ best,
      longestFrom (pre ++ [b] ++ v) node pre.length (0, 0) = some best ∧
        EndsWith (tokenMatcher tokens) pre [b] v (0, 0) best := by
    apply longestFrom_spec hnode _ hreach
    rw [List.length_append, List.length_singleton]
  have htext : pre ++ [b] ++ v = pre ++ b :: v := by
    rw [List.append_assoc, List.singleton_append]
  have hturn : turn (tokenMatcher tokens) unk (pre ++ b :: v) pre.length =
      some ((best.1 : Int), best.2) := by
    rw [turn_eq, hnode, Option.elim_some, ← htext, heq, Option.map_some]
  -- a token that matches begins with the byte itself
  have hmatch {w : List UInt8} (hw : w ≠ []) (hpre : w <+: b :: v) :
      ∃ w', w = b :: w' ∧ w' <+: v := by
    rcases List.prefix_cons_iff.1 hpre with rfl | ⟨w', rfl, hw'⟩
    · exact absurd rfl hw
    · exact ⟨w', rfl, hw'⟩
  rcases hends with ⟨w, ⟨tail, rfl⟩, hget, hlen, hlong⟩ | ⟨rfl, hnone⟩
  · refine .inl ⟨b :: w, tail, best.1, rfl, ?_, getElem?_of_get? hget, ?_⟩
    · refine ⟨List.mem_of_getElem? (getElem?_of_get? hget), List.cons_ne_nil b w,
        List.prefix_append (b :: w) tail, fun w' hw' hpre => ?_⟩
      by_cases hne : w' = []
      · rw [hne]
        exact Nat.zero_le _
      · obtain ⟨w'', rfl, hw''⟩ := hmatch hne hpre
        exact Nat.succ_le_succ (hlong w'' hw'' (get?_isSome hw'))
    · rw [hturn, hlen, List.append_assoc, List.singleton_append]
  · refine .inr ⟨fun w hw hne hpre => ?_, hturn⟩
    obtain ⟨w', rfl, hw'⟩ := hmatch hne hpre
    have hsome := get?_isSome hw
    have hnone' : (tokenMatcher tokens).get? (b :: w') = none := hnone w' hw'
    rw [hnone'] at hsome
    cases hsome

theorem Longest.unique (h : Longest tokens rest w) (h' : Longest tokens rest w') : w = w' := by
  have hlen : w.length = w'.length :=
    Nat.le_antisymm (h'.longest w h.mem h.isPrefix) (h.longest w' h'.mem h'.isPrefix)
  exact (List.prefix_of_prefix_length_le h.isPrefix h'.isPrefix hlen.le).eq_of_length hlen

end Turn

section Outer
variable {matcher : Trie UInt8 Nat} {unk : Int} {text : List UInt8}

theorem tokenize_of_turn (hlt : position < text.length)
    (h : turn matcher unk text position = some (token, next)) (n : Nat) (output : List Int) :
    tokenize matcher unk text (n + 1) position output =
      tokenize matcher unk text n next (output ++ [token]) := by
  rw [tokenize, if_pos hlt, h]

theorem tokenize_of_turn_none (hlt : position < text.length)
    (h : turn matcher unk text position = none) (n : Nat) (output : List Int) :
    tokenize matcher unk text (n + 1) position output = some .outOfBounds := by
  rw [tokenize, if_pos hlt, h]

theorem tokenize_at_end (h : text.length ≤ position) (n : Nat) (output : List Int) :
    tokenize matcher unk text (n + 1) position output = some (.returned output) := by
  rw [tokenize, if_neg (Nat.not_lt.2 h)]

/-- The tokens so far do not matter to the turns that follow. -/
theorem tokenize_output (h : tokenize matcher unk text n position before = some (.returned out)) :
    ∃ more, out = before ++ more ∧
      ∀ before', tokenize matcher unk text n position before' =
        some (.returned (before' ++ more)) := by
  induction n generalizing position before with
  | zero => cases h
  | succ n ih =>
    by_cases hlt : position < text.length
    · cases hturn : turn matcher unk text position with
      | none =>
        rw [tokenize_of_turn_none hlt hturn] at h
        cases h
      | some r =>
        obtain ⟨token, next⟩ := r
        rw [tokenize_of_turn hlt hturn] at h
        obtain ⟨more, hout, hmore⟩ := ih h
        refine ⟨token :: more, ?_, fun before' => ?_⟩
        · rw [hout, List.append_assoc, List.singleton_append]
        · rw [tokenize_of_turn hlt hturn, hmore, List.append_assoc, List.singleton_append]
    · rw [tokenize_at_end (Nat.not_lt.1 hlt)] at h
      cases h
      refine ⟨[], (List.append_nil _).symm, fun before' => ?_⟩
      rw [tokenize_at_end (Nat.not_lt.1 hlt), List.append_nil]

theorem length_lt_append_cons (pre : List UInt8) (b : UInt8) (v : List UInt8) :
    pre.length < (pre ++ b :: v).length := by
  rw [List.length_append, List.length_cons]
  omega

end Outer

section Runs
variable {tokens : List (List UInt8)} {unk : Int} {text rest : List UInt8}

/-- A call that returns from a position on with the right tokens. -/
def ReturnsFrom (tokens : List (List UInt8)) (unk : Int) (text : List UInt8) (position : Nat)
    (rest : List UInt8) : Prop :=
  ∃ n out, tokenize (tokenMatcher tokens) unk text n position [] = some (.returned out) ∧
    Segments tokens unk rest out

theorem returnsFrom_of_turn {more : List UInt8} (hlt : position < text.length)
    (hturn : turn (tokenMatcher tokens) unk text position = some (token, next))
    (hseg : ∀ out, Segments tokens unk more out → Segments tokens unk rest (token :: out))
    (h : ReturnsFrom tokens unk text next more) : ReturnsFrom tokens unk text position rest := by
  obtain ⟨n, out, hn, hout⟩ := h
  obtain ⟨more, hmore, hany⟩ := tokenize_output hn
  refine ⟨n + 1, token :: out, ?_, hseg out hout⟩
  rw [tokenize_of_turn hlt hturn, hany, hmore]
  rfl

/-- Where all that is left of a text at its positions can be matched, it is. -/
theorem returnsFrom_of_matchable
    (h : ∀ rest, Boundary tokens text rest → rest ≠ [] → Matchable tokens rest)
    (hrest : Boundary tokens text rest) (htext : text = pre ++ rest) :
    ReturnsFrom tokens unk text pre.length rest := by
  induction hlen : rest.length using Nat.strongRecOn generalizing rest pre with
  | ind len ih =>
    cases rest with
    | nil =>
      have hend : text.length ≤ pre.length := by rw [htext, List.append_nil]
      exact ⟨1, [], tokenize_at_end hend 0 [], .nil⟩
    | cons b v =>
      have hmatch := h (b :: v) hrest (List.cons_ne_nil b v)
      have hlt : pre.length < text.length := htext ▸ length_lt_append_cons pre b v
      by_cases hstart : ∃ t ∈ tokens, t.head? = some b
      · obtain ⟨t, ht, hhead⟩ := hstart
        rcases turn_of_started ht hhead hmatch.inside unk pre with
          ⟨w, tail, i, hsplit, hw, hi, hturn⟩ | ⟨hno, _⟩
        · rw [← htext] at hturn
          have hshort : tail.length < len := by
            have hpos := List.length_pos_of_ne_nil hw.ne_nil
            rw [← hlen, hsplit, List.length_append]
            omega
          rw [hsplit] at hw hrest htext ⊢
          have htext' : text = pre ++ w ++ tail := by rw [htext, List.append_assoc]
          exact returnsFrom_of_turn hlt hturn (fun out hout => .token hw hi hout)
            (ih tail.length hshort (.token hrest hw) htext' rfl)
        · exact absurd hno (hmatch.whole t ht b rfl hhead)
      · push Not at hstart
        have hturn := turn_of_unstarted hstart unk pre v
        rw [← htext] at hturn
        have hno : Unmatched tokens (b :: v) := by
          intro w hw hne hpre
          rcases List.prefix_cons_iff.1 hpre with rfl | ⟨w', rfl, _⟩
          · exact hne rfl
          · exact hstart _ hw rfl
        have hshort : v.length < len := hlen ▸ Nat.lt_succ_self _
        have htext' : text = pre ++ [b] ++ v := by
          rw [htext, List.append_assoc, List.singleton_append]
        have hnext := ih v.length hshort (.unknown hrest hno) htext' rfl
        rw [List.length_append, List.length_singleton] at hnext
        exact returnsFrom_of_turn hlt hturn (fun out hout => .unknown hno hout) hnext

/-- A turn of a run that returns, and never comes back to the beginning: what is left can be
matched. -/
theorem matchable_of_returns {out : List Int} {pre v : List UInt8}
    (hrun : tokenize (tokenMatcher tokens) unk (pre ++ b :: v) m pre.length output =
      some (.returned out))
    (hback : ∀ k < m, ∀ output out, tokenize (tokenMatcher tokens) unk (pre ++ b :: v) k 0 output ≠
      some (.returned out)) : Matchable tokens (b :: v) := by
  have hlt := length_lt_append_cons pre b v
  cases m with
  | zero => cases hrun
  | succ m =>
    have hin : ∀ w ∈ tokens, ¬ b :: v ++ [0] <+: w := by
      intro w hw hpre
      have hnone := turn_eq_none hw hpre (List.cons_ne_nil b v) unk pre
      rw [tokenize_of_turn_none hlt hnone] at hrun
      cases hrun
    refine ⟨fun w hw c hc hhead hno => ?_, hin⟩
    obtain rfl : b = c := Option.some.inj hc
    rcases turn_of_started hw hhead hin unk pre with ⟨w', _, _, _, hw', _, _⟩ | ⟨_, hturn⟩
    · exact hno w' hw'.mem hw'.ne_nil hw'.isPrefix
    · rw [tokenize_of_turn hlt hturn] at hrun
      exact hback m (Nat.lt_succ_self m) _ _ hrun

/-- A run that returns, and never comes back to the beginning, goes through all the positions. -/
theorem run_through {out : List Int}
    (hrun : tokenize (tokenMatcher tokens) unk text n 0 output = some (.returned out))
    (hback : ∀ k < n, ∀ output out, tokenize (tokenMatcher tokens) unk text k 0 output ≠
      some (.returned out)) (hrest : Boundary tokens text rest) :
    ∃ m ≤ n, ∃ pre output, text = pre ++ rest ∧
      tokenize (tokenMatcher tokens) unk text m pre.length output = some (.returned out) := by
  induction hrest with
  | start => exact ⟨n, le_rfl, [], output, rfl, hrun⟩
  | @token w rest _ hw ih =>
    obtain ⟨m, hm, pre, output, rfl, hpre⟩ := ih
    obtain ⟨b, w', rfl⟩ := List.exists_cons_of_ne_nil hw.ne_nil
    have hmatch := matchable_of_returns hpre fun k hk => hback k (hk.trans_le hm)
    rcases turn_of_started hw.mem rfl hmatch.inside unk pre with
      ⟨x, tail, i, _, hx, _, hturn⟩ | ⟨hno, _⟩
    · have hxw : x = b :: w' := hx.unique hw
      cases m with
      | zero => cases hpre
      | succ m =>
        have hlt : pre.length < (pre ++ (b :: w' ++ rest)).length :=
          length_lt_append_cons pre b (w' ++ rest)
        rw [hxw] at hturn
        rw [tokenize_of_turn hlt hturn] at hpre
        exact ⟨m, Nat.le_of_succ_le hm, pre ++ b :: w', _, (List.append_assoc ..).symm, hpre⟩
    · exact absurd hw.isPrefix (hno _ hw.mem hw.ne_nil)
  | @unknown b rest _ hno ih =>
    obtain ⟨m, hm, pre, output, rfl, hpre⟩ := ih
    have hmatch := matchable_of_returns hpre fun k hk => hback k (hk.trans_le hm)
    have hstart : ∀ t ∈ tokens, t.head? ≠ some b :=
      fun t ht hhead => hmatch.whole t ht b rfl hhead hno
    cases m with
    | zero => cases hpre
    | succ m =>
      rw [tokenize_of_turn (length_lt_append_cons pre b rest)
        (turn_of_unstarted hstart unk pre rest)] at hpre
      refine ⟨m, Nat.le_of_succ_le hm, pre ++ [b], output ++ [unk], ?_, ?_⟩
      · rw [List.append_assoc, List.singleton_append]
      · rw [List.length_append, List.length_singleton]
        exact hpre

/-- A call that returns can match all that is left of the text at its positions. -/
theorem matchable_of_run {out : List Int}
    (h : ∃ n, tokenize (tokenMatcher tokens) unk text n 0 [] = some (.returned out))
    (hrest : Boundary tokens text rest) (hne : rest ≠ []) : Matchable tokens rest := by
  classical
  -- the shortest run that returns does not come back to the beginning
  have hreturns : ∃ n output out,
      tokenize (tokenMatcher tokens) unk text n 0 output = some (.returned out) := by
    obtain ⟨n, hn⟩ := h
    exact ⟨n, [], out, hn⟩
  obtain ⟨output, out', hrun⟩ := Nat.find_spec hreturns
  have hback : ∀ k < Nat.find hreturns, ∀ output out,
      tokenize (tokenMatcher tokens) unk text k 0 output ≠ some (.returned out) :=
    fun k hk output out heq => Nat.find_min hreturns hk ⟨output, out, heq⟩
  obtain ⟨m, hm, pre, output', rfl, hpre⟩ := run_through hrun hback hrest
  obtain ⟨b, v, rfl⟩ := List.exists_cons_of_ne_nil hne
  exact matchable_of_returns hpre fun k hk => hback k (hk.trans_le hm)

/-- A text is tokenized, without a read out of its bounds, into the longest tokens and unknown
bytes, if and only if what is left of it can be matched wherever these lead to. -/
theorem tokenize_segments_iff (tokens : List (List UInt8)) (unk : Int) (text : Text) :
    (∃ out, Yields (fun n => tokenize (tokenMatcher tokens) unk text.bytes n 0 [])
        (.returned out) ∧ Segments tokens unk text.bytes out) ↔
      ∀ rest, Boundary tokens text.bytes rest → rest ≠ [] → Matchable tokens rest := by
  constructor
  · rintro ⟨out, hrun, _⟩ rest hrest hne
    exact matchable_of_run hrun hrest hne
  · intro h
    have hreturns : ReturnsFrom tokens unk text.bytes 0 text.bytes :=
      returnsFrom_of_matchable h .start (List.nil_append _).symm
    obtain ⟨n, out, hn, hout⟩ := hreturns
    exact ⟨out, ⟨n, hn⟩, hout⟩

/-- A vocabulary whose one token the text begins like, but does not contain: the position goes
back to the beginning of the text, for ever. -/
theorem not_segments_ab :
    ¬ ∃ out, Yields (fun n => tokenize (tokenMatcher [[97, 98]]) (-1) [97] n 0 [])
      (.returned out) ∧ Segments [[97, 98]] (-1) [97] out := by
  rintro ⟨out, hrun, _⟩
  have hmatch := matchable_of_run hrun .start (List.cons_ne_nil 97 [])
  apply hmatch.whole [97, 98] (.head _) 97 rfl rfl
  intro w hw _ hpre
  rw [List.mem_singleton.1 hw] at hpre
  exact absurd hpre.length_le (by decide)

end Runs

end ActQuant.Tokenizer.Rwkv
