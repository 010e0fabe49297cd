import Mathlib.Data.List.Perm.Basic
import Mathlib.Order.Lattice

namespace ActQuant.Lib

/-- Remove the first least element of a list, for a total preorder given as a test. -/
def popMin (le : α → α → Bool) : List α → Option (α × List α)
  | [] => none
  | x :: xs =>
    match popMin le xs with
    | none => some (x, [])
    | some (y, ys) => if le x y then some (x, y :: ys) else some (y, x :: ys)

theorem popMin_none_iff (le : α → α → Bool) {q : List α} : popMin le q = none ↔ q = [] := by
  cases q with
  | nil => simp only [popMin]
  | cons x xs =>
    simp only [popMin, reduceCtorEq, iff_false]
    split
    · simp
    · split <;> simp

/-- What is popped and what is left are together the queue before. -/
theorem popMin_perm {le : α → α → Bool} (h : popMin le q = some (m, r)) : q.Perm (m :: r) := by
  induction q generalizing m r with
  | nil => cases h
  | cons x xs ih =>
    simp only [popMin] at h
    cases hp : popMin le xs with
    | none =>
      rw [popMin_none_iff] at hp
      subst hp
      simp only [popMin, Option.some.injEq, Prod.mk.injEq] at h
      obtain ⟨rfl, rfl⟩ := h
      exact .refl _
    | some p =>
      obtain ⟨y, ys⟩ := p
      simp only [hp] at h
      split at h
      · obtain ⟨rfl, rfl⟩ := Prod.mk.injEq .. ▸ Option.some.inj h
        exact (ih hp).cons x
      · obtain ⟨rfl, rfl⟩ := Prod.mk.injEq .. ▸ Option.some.inj h
        exact ((ih hp).cons x).trans (.swap _ _ _)

theorem mem_of_popMin {le : α → α → Bool} (h : popMin le q = some (m, r)) : m ∈ q :=
  (popMin_perm h).mem_iff.2 (.head _)

theorem mem_rest_of_popMin {le : α → α → Bool} (h : popMin le q = some (m, r)) (hx : x ∈ r) :
    x ∈ q :=
  (popMin_perm h).mem_iff.2 (.tail _ hx)

theorem eq_or_mem_of_popMin {le : α → α → Bool} (h : popMin le q = some (m, r)) (hx : x ∈ q) :
    x = m ∨ x ∈ r :=
  List.mem_cons.1 ((popMin_perm h).mem_iff.1 hx)

theorem popMin_length {le : α → α → Bool} (h : popMin le q = some (m, r)) :
    q.length = r.length + 1 :=
  (popMin_perm h).length_eq

theorem popMin_le {le : α → α → Bool} (htot : ∀ x y, le x y = true ∨ le y x = true)
    (htrans : ∀ {x y z}, le x y = true → le y z = true → le x z = true)
    (h : popMin le q = some (m, r)) (hx : x ∈ q) : le m x = true := by
  have hrefl (z : α) : le z z = true := (htot z z).elim id id
  induction q generalizing m r x with
  | nil => cases hx
  | cons z xs ih =>
    simp only [popMin] at h
    cases hp : popMin le xs with
    | none =>
      rw [popMin_none_iff] at hp
      subst hp
      simp only [popMin, Option.some.injEq, Prod.mk.injEq] at h
      obtain ⟨rfl, rfl⟩ := h
      obtain rfl := List.mem_singleton.1 hx
      exact hrefl _
    | some p =>
      obtain ⟨y, ys⟩ := p
      simp only [hp] at h
      split at h
      · rename_i hzy
        obtain ⟨rfl, rfl⟩ := Prod.mk.injEq .. ▸ Option.some.inj h
        rcases List.mem_cons.1 hx with rfl | hx
        · exact hrefl _
        · exact htrans hzy (ih hp hx)
      · rename_i hzy
        obtain ⟨rfl, rfl⟩ := Prod.mk.injEq .. ▸ Option.some.inj h
        rcases List.mem_cons.1 hx with rfl | hx
        · exact (htot _ _).resolve_right hzy
        · exact ih hp hx

/-! Pieces of a text that are merged pair by pair, the pair of the least rank first. -/

variable {β κ : Type} [LinearOrder κ]

/-- The least rank of two neighbours, and the place of the first pair that has it. -/
def bestPair (rank : List β → List β → Option κ) : List (List β) → Option (κ × Nat)
  | a :: b :: rest =>
    match rank a b, bestPair rank (b :: rest) with
    | none, none => none
    | none, some (k, i) => some (k, i + 1)
    | some k, none => some (k, 0)
    | some k, some (k', i) => if k' < k then some (k', i + 1) else some (k, 0)
  | _ => none

def mergeAt : Nat → List (List β) → List (List β)
  | 0, a :: b :: rest => (a ++ b) :: rest
  | i + 1, a :: rest => a :: mergeAt i rest
  | _, pieces => pieces

/-- So many merges, or fewer where no pair has a rank. -/
def mergeFuel (rank : List β → List β → Option κ) : Nat → List (List β) → List (List β)
  | 0, pieces => pieces
  | fuel + 1, pieces =>
    match bestPair rank pieces with
    | none => pieces
    | some (_, i) => mergeFuel rank fuel (mergeAt i pieces)

/-- Merge until no pair has a rank; each merge leaves one piece less. -/
def greedyMerge (rank : List β → List β → Option κ) (pieces : List (List β)) : List (List β) :=
  mergeFuel rank pieces.length pieces

theorem mergeAt_append (pre : List (List β)) (a b : List β) (post : List (List β)) :
    mergeAt pre.length (pre ++ a :: b :: post) = pre ++ (a ++ b) :: post := by
  induction pre with
  | nil => rfl
  | cons c pre ih => exact congrArg (c :: ·) ih

theorem flatten_mergeAt (i : Nat) (pieces : List (List β)) :
    (mergeAt i pieces).flatten = pieces.flatten := by
  induction i, pieces using mergeAt.induct with
  | case1 a b rest => rw [mergeAt, List.flatten_cons, List.append_assoc]; rfl
  | case2 i a rest ih => rw [mergeAt, List.flatten_cons, ih]; rfl
  | case3 i pieces h₁ h₂ => rw [mergeAt] <;> assumption

variable {rank : List β → List β → Option κ}

/-- The best pair is one of the pairs. -/
theorem mem_of_bestPair (h : bestPair rank pieces = some (k, i)) :
    ∃ pre a b post, pieces = pre ++ a :: b :: post ∧ pre.length = i ∧ rank a b = some k := by
  induction pieces generalizing k i with
  | nil => cases h
  | cons a rest ih =>
    cases rest with
    | nil => cases h
    | cons b rest =>
      have hlater {k' : κ} {j : Nat} (hb : bestPair rank (b :: rest) = some (k', j)) :
          ∃ pre c d post, a :: b :: rest = pre ++ c :: d :: post ∧ pre.length = j + 1 ∧
            rank c d = some k' := by
        obtain ⟨pre, c, d, post, heq, hlen, hrank⟩ := ih hb
        exact ⟨a :: pre, c, d, post, by rw [heq]; rfl, by rw [List.length_cons, hlen], hrank⟩
      rw [bestPair] at h
      split at h
      · cases h
      · rename_i hb
        cases h
        exact hlater hb
      · rename_i hrank _
        cases h
        exact ⟨[], a, b, rest, rfl, rfl, hrank⟩
      · rename_i hrank hb
        split at h
        · cases h
          exact hlater hb
        · cases h
          exact ⟨[], a, b, rest, rfl, rfl, hrank⟩

theorem bestPair_eq_none
    (h : ∀ pre a b post, pieces = pre ++ a :: b :: post → rank a b = none) :
    bestPair rank pieces = none := by
  cases hb : bestPair rank pieces with
  | none => rfl
  | some best =>
    obtain ⟨pre, a, b, post, heq, _, hrank⟩ := mem_of_bestPair hb
    rw [h pre a b post heq] at hrank
    cases hrank

/-- A pair with no better one, and none as good further left, is the best one. -/
theorem bestPair_eq_some {pre : List (List β)} (hrank : rank a b = some k)
    (h : ∀ pre' a' b' post' k', pre ++ a :: b :: post = pre' ++ a' :: b' :: post' →
      rank a' b' = some k' → k < k' ∨ k = k' ∧ pre.length ≤ pre'.length) :
    bestPair rank (pre ++ a :: b :: post) = some (k, pre.length) := by
  induction pre with
  | nil =>
    rw [List.nil_append, bestPair, hrank]
    cases hb : bestPair rank (b :: post) with
    | none => rfl
    | some best =>
      obtain ⟨k', i⟩ := best
      obtain ⟨pre', a', b', post', heq, _, hrank'⟩ := mem_of_bestPair hb
      have hle := h (a :: pre') a' b' post' k' (by rw [List.nil_append, heq]; rfl) hrank'
      dsimp only
      rw [if_neg]
      · rfl
      · intro hlt
        rcases hle with hle | hle
        · exact lt_asymm hlt hle
        · exact absurd hlt (hle.1 ▸ lt_irrefl k)
  | cons c pre ih =>
    have hrest : bestPair rank (pre ++ a :: b :: post) = some (k, pre.length) := by
      refine ih fun pre' a' b' post' k' heq hrank' => ?_
      have hle := h (c :: pre') a' b' post' k' (congrArg (c :: ·) heq) hrank'
      rwa [List.length_cons, List.length_cons, Nat.add_le_add_iff_right] at hle
    obtain ⟨d, rest, hd⟩ : ∃ d rest, pre ++ a :: b :: post = d :: rest := by
      cases pre with
      | nil => exact ⟨a, b :: post, rfl⟩
      | cons d pre => exact ⟨d, pre ++ a :: b :: post, rfl⟩
    rw [List.cons_append, List.length_cons, hd, bestPair, ← hd, hrest]
    cases hcd : rank c d with
    | none => rfl
    | some k' =>
      have hle := h [] c d rest k' (by rw [List.cons_append, hd]; rfl) hcd
      dsimp only
      rw [if_pos]
      rcases hle with hle | hle
      · exact hle
      · exact absurd hle.2 (Nat.not_succ_le_zero _)

theorem length_mergeAt (h : bestPair rank pieces = some (k, i)) :
    (mergeAt i pieces).length + 1 = pieces.length := by
  obtain ⟨pre, a, b, post, rfl, rfl, _⟩ := mem_of_bestPair h
  rw [mergeAt_append, List.length_append, List.length_append]
  rfl

theorem greedyMerge_eq_self (h : bestPair rank pieces = none) : greedyMerge rank pieces = pieces := by
  rw [greedyMerge]
  cases pieces.length with
  | zero => rfl
  | succ n => rw [mergeFuel, h]

theorem greedyMerge_eq (h : bestPair rank pieces = some (k, i)) :
    greedyMerge rank pieces = greedyMerge rank (mergeAt i pieces) := by
  rw [greedyMerge, ← length_mergeAt h, mergeFuel, h]
  rfl

theorem flatten_mergeFuel (fuel : Nat) (pieces : List (List β)) :
    (mergeFuel rank fuel pieces).flatten = pieces.flatten := by
  induction fuel generalizing pieces with
  | zero => rfl
  | succ fuel ih =>
    rw [mergeFuel]
    split
    · rfl
    · rw [ih, flatten_mergeAt]

theorem flatten_greedyMerge (pieces : List (List β)) :
    (greedyMerge rank pieces).flatten = pieces.flatten :=
  flatten_mergeFuel _ pieces


/-! Pieces in a chain through an array, merged by a queue of pairs. A pair stays in the queue when
one of its pieces is merged into another, and is skipped when it is taken out. -/

/-- A piece of a text: what stands from a place on, and how much of it is meant. -/
structure Piece (β : Type) where
  text : List β
  n : Nat

def Piece.str (p : Piece β) : List β := p.text.take p.n

structure Symbol (β : Type) extends Piece β where
  prev : Int
  next : Int

def symbolAt (symbols : List (Symbol β)) (i : Nat) : Symbol β :=
  symbols.getD i ⟨⟨[], 0⟩, -1, -1⟩

/-- The left piece with the right one merged into it. -/
def Symbol.absorb (left right : Symbol β) : Symbol β :=
  ⟨⟨left.text, left.n + right.n⟩, left.prev, right.next⟩

def Symbol.clear (s : Symbol β) : Symbol β := ⟨⟨s.text, 0⟩, s.prev, s.next⟩

def Symbol.setPrev (s : Symbol β) (prev : Int) : Symbol β := ⟨s.toPiece, prev, s.next⟩

/-- The right piece is merged into the left one and taken out of the chain. -/
def link (symbols : List (Symbol β)) (l r : Nat) : List (Symbol β) :=
  let left := symbolAt symbols l
  let right := symbolAt symbols r
  let merged := (symbols.set l (left.absorb right)).set r right.clear
  if 0 ≤ right.next then
    merged.set right.next.toNat ((symbolAt merged right.next.toNat).setPrev l)
  else merged

/-- What a merge by a queue leaves open: the pairs `ε` it keeps of two pieces, if any, when a pair
is out of date, which pair goes first, and what else is written down about a pair. -/
structure Scheme (β ε σ : Type) where
  left : ε → Nat
  right : ε → Nat
  found : Piece β → Piece β → Nat → Nat → Option ε
  note : Piece β → Piece β → Nat → Nat → σ → σ
  outdated : Piece β → Piece β → ε → Bool
  before : ε → ε → Bool

structure Work (β ε σ : Type) where
  symbols : List (Symbol β)
  queue : List ε
  notes : σ

def tryAdd (S : Scheme β ε σ) (left right : Int) (w : Work β ε σ) : Work β ε σ :=
  if left = -1 ∨ right = -1 then w
  else
    let l := (symbolAt w.symbols left.toNat).toPiece
    let r := (symbolAt w.symbols right.toNat).toPiece
    match S.found l r left.toNat right.toNat with
    | none => w
    | some e =>
      { w with
        queue := e :: w.queue
        notes := S.note l r left.toNat right.toNat w.notes }

/-- What is done with a pair that was taken from the queue. -/
def mergeEntry (S : Scheme β ε σ) (e : ε) (w : Work β ε σ) : Work β ε σ :=
  let left := (symbolAt w.symbols (S.left e)).toPiece
  let right := (symbolAt w.symbols (S.right e)).toPiece
  if left.n = 0 ∨ right.n = 0 ∨ S.outdated left right e then w
  else
    let symbols := link w.symbols (S.left e) (S.right e)
    let left := symbolAt symbols (S.left e)
    tryAdd S (S.left e) left.next (tryAdd S left.prev (S.left e) { w with symbols := symbols })

/-- The loop until the queue is empty. -/
def mergeLoop (S : Scheme β ε σ) : Nat → Work β ε σ → Option (Work β ε σ)
  | 0, _ => none
  | fuel + 1, w =>
    match popMin S.before w.queue with
    | none => some w
    | some (e, queue) => mergeLoop S fuel (mergeEntry S e { w with queue := queue })

/-- The pairs are those that have a rank, the least one first, and the leftmost of these. -/
structure Scheme.Lawful {κ : Type} [LinearOrder κ] (S : Scheme β ε σ) (key : ε → κ)
    (rank : List β → List β → Option κ) : Prop where
  left_eq : S.found l r i j = some e → S.left e = i
  right_eq : S.found l r i j = some e → S.right e = j
  rank_eq : ∀ {l r : Piece β}, r.text = l.text.drop l.n →
    (S.found l r i j).map key = rank l.str r.str
  outdated_eq : ∀ {l r l' r' : Piece β}, S.found l r i j = some e → r.text = l.text.drop l.n →
    l'.text = l.text → r'.text = r.text → l.n ≤ l'.n → l'.n ≤ l.text.length → r.n ≤ r'.n →
    r'.n ≤ r.text.length → (S.outdated l' r' e = false ↔ l'.n = l.n ∧ r'.n = r.n)
  before_iff : S.before e e' = true ↔ key e < key e' ∨ key e = key e' ∧ S.left e ≤ S.left e'

/-! ### The chain -/

def nextOf : List Nat → Int
  | [] => -1
  | i :: _ => i

/-- The chain goes through some places of the array, and its pieces make up a text. -/
def Linked (symbols : List (Symbol β)) : Int → List β → List Nat → Prop
  | _, text, [] => text = []
  | p, text, i :: rest =>
    i < symbols.length ∧ (symbolAt symbols i).prev = p ∧ (symbolAt symbols i).next = nextOf rest ∧
      (symbolAt symbols i).text = text ∧ 0 < (symbolAt symbols i).n ∧
      (symbolAt symbols i).n ≤ text.length ∧
      Linked symbols i (text.drop (symbolAt symbols i).n) rest

/-- The places in the chain stand in order, and those outside are empty. -/
structure Chain (symbols : List (Symbol β)) (text : List β) (live : List Nat) : Prop where
  linked : Linked symbols (-1) text live
  sorted : live.Pairwise (· < ·)
  dead : ∀ i, i ∉ live → (symbolAt symbols i).n = 0

/-- The pieces in the chain. -/
def pieces (symbols : List (Symbol β)) (live : List Nat) : List (List β) :=
  live.map fun i => (symbolAt symbols i).str

theorem Linked.congr {symbols symbols' : List (Symbol β)} (h : Linked symbols p text live)
    (hlen : symbols'.length = symbols.length)
    (hat : ∀ i ∈ live, symbolAt symbols' i = symbolAt symbols i) :
    Linked symbols' p text live := by
  induction live generalizing p text with
  | nil => exact h
  | cons i rest ih =>
    obtain ⟨hi, hp, hn, ht, h0, hle, hrest⟩ := h
    have hsame := hat i List.mem_cons_self
    rw [Linked, hsame, hlen]
    exact ⟨hi, hp, hn, ht, h0, hle, ih hrest fun j hj => hat j (List.mem_cons_of_mem _ hj)⟩

theorem Linked.mem {symbols : List (Symbol β)} (h : Linked symbols p text live) (hi : i ∈ live) :
    i < symbols.length ∧ 0 < (symbolAt symbols i).n ∧
      (symbolAt symbols i).n ≤ (symbolAt symbols i).text.length := by
  induction live generalizing p text with
  | nil => cases hi
  | cons j rest ih =>
    obtain ⟨hj, _, _, ht, h0, hle, hrest⟩ := h
    rcases List.mem_cons.1 hi with rfl | hi
    · exact ⟨hj, h0, ht ▸ hle⟩
    · exact ih hrest hi

/-- What a piece of the chain knows of the next one. -/
theorem Linked.adjacent {symbols : List (Symbol β)}
    (h : Linked symbols p text (pre ++ i :: j :: post)) :
    (symbolAt symbols i).next = j ∧ (symbolAt symbols j).prev = i ∧
      (symbolAt symbols j).next = nextOf post ∧
      (symbolAt symbols j).text = (symbolAt symbols i).text.drop (symbolAt symbols i).n := by
  induction pre generalizing p text with
  | nil =>
    obtain ⟨_, _, hn, ht, _, _, _, hp, hn', ht', _⟩ := h
    exact ⟨hn, hp, hn', by rw [ht', ht]⟩
  | cons k pre ih => exact ih h.2.2.2.2.2.2

theorem Linked.next_eq {symbols : List (Symbol β)} (h : Linked symbols p text (pre ++ i :: post)) :
    (symbolAt symbols i).next = nextOf post := by
  induction pre generalizing p text with
  | nil => exact h.2.2.1
  | cons k pre ih => exact ih h.2.2.2.2.2.2

/-- The piece before a place of the chain. -/
theorem Linked.prev_eq {symbols : List (Symbol β)} (h : Linked symbols p text (pre ++ i :: post)) :
    (symbolAt symbols i).prev = (pre.getLast?.map Int.ofNat).getD p := by
  induction pre generalizing p text with
  | nil => exact h.2.1
  | cons k pre ih =>
    rw [ih h.2.2.2.2.2.2, List.getLast?_cons]
    cases pre.getLast? <;> rfl

theorem flatten_pieces {symbols : List (Symbol β)} (h : Linked symbols p text live) :
    (pieces symbols live).flatten = text := by
  induction live generalizing p text with
  | nil => exact h.symm
  | cons i rest ih =>
    obtain ⟨_, _, _, ht, _, _, hrest⟩ := h
    have hih := ih hrest
    rw [pieces] at hih ⊢
    rw [List.map_cons, List.flatten_cons, hih, Piece.str, ht, List.take_append_drop]

/-! ### One merge in the chain -/

theorem symbolAt_set {symbols : List (Symbol β)} (hi : i < symbols.length) (x : Symbol β) (j : Nat) :
    symbolAt (symbols.set i x) j = if j = i then x else symbolAt symbols j := by
  rw [symbolAt, symbolAt, List.getD_eq_getElem?_getD, List.getD_eq_getElem?_getD]
  by_cases hj : j = i
  · subst hj
    rw [if_pos rfl, List.getElem?_set_self hi, Option.getD_some]
  · rw [if_neg hj, List.getElem?_set_ne (Ne.symm hj)]

theorem length_link (symbols : List (Symbol β)) (l r : Nat) :
    (link symbols l r).length = symbols.length := by
  rw [link]
  split
  · rw [List.length_set, List.length_set, List.length_set]
  · rw [List.length_set, List.length_set]

theorem symbolAt_link {symbols : List (Symbol β)} (hl : l < symbols.length)
    (hr : r < symbols.length) (hlr : l ≠ r)
    (hnext : ∀ x : Nat, (symbolAt symbols r).next = x → x ≠ l ∧ x ≠ r ∧ x < symbols.length)
    (i : Nat) :
    symbolAt (link symbols l r) i =
      if i = l then (symbolAt symbols l).absorb (symbolAt symbols r)
      else if i = r then (symbolAt symbols r).clear
      else if (i : Int) = (symbolAt symbols r).next then (symbolAt symbols i).setPrev l
      else symbolAt symbols i := by
  have hr' : r < (symbols.set l ((symbolAt symbols l).absorb (symbolAt symbols r))).length := by
    rwa [List.length_set]
  rw [link]
  split
  case isTrue hpos =>
    obtain ⟨x, hx⟩ := Int.eq_ofNat_of_zero_le hpos
    obtain ⟨hxl, hxr, hxlt⟩ := hnext x hx
    rw [symbolAt_set (by rwa [List.length_set, List.length_set, hx, Int.toNat_natCast]), hx,
      Int.toNat_natCast, symbolAt_set hr', symbolAt_set hr', symbolAt_set hl, symbolAt_set hl,
      if_neg hxr, if_neg hxl]
    by_cases hix : i = x
    · subst hix
      rw [if_pos rfl, if_neg hxl, if_neg hxr, if_pos rfl]
    · rw [if_neg hix, if_neg (fun h => hix (Int.natCast_inj.1 h))]
      by_cases hil : i = l
      · rw [if_pos hil, if_pos hil, if_neg (fun h => hlr (hil.symm.trans h))]
      · rw [if_neg hil, if_neg hil]
  case isFalse hneg =>
    rw [symbolAt_set hr', symbolAt_set hl]
    have hi : ¬ (i : Int) = (symbolAt symbols r).next := by
      intro h
      exact hneg (h ▸ Int.natCast_nonneg i)
    rw [if_neg hi]
    by_cases hil : i = l
    · rw [if_pos hil, if_pos hil, if_neg (fun h => hlr (hil.symm.trans h))]
    · rw [if_neg hil, if_neg hil]

/-- The next piece of the right one is another piece of the chain. -/
theorem Linked.next_other {symbols : List (Symbol β)}
    (h : Linked symbols p text (pre ++ l :: r :: post)) (hnd : (pre ++ l :: r :: post).Nodup)
    (x : Nat) (hx : (symbolAt symbols r).next = x) :
    x ≠ l ∧ x ≠ r ∧ x ∉ pre ∧ x < symbols.length ∧ ∃ post', post = x :: post' := by
  rw [h.adjacent.2.2.1] at hx
  cases post with
  | nil => exact absurd hx (by rw [nextOf]; omega)
  | cons y post' =>
    cases Int.natCast_inj.1 hx
    obtain ⟨_, htail, hdisj⟩ := List.nodup_append.1 hnd
    obtain ⟨hl, htail⟩ := List.nodup_cons.1 htail
    obtain ⟨hr, _⟩ := List.nodup_cons.1 htail
    refine ⟨?_, ?_, ?_, (h.mem ?_).1, post', rfl⟩
    · rintro rfl
      exact hl (List.mem_cons_of_mem _ List.mem_cons_self)
    · rintro rfl
      exact hr List.mem_cons_self
    · intro hx
      exact hdisj x hx x (by simp) rfl
    · simp

/-- What stands in the chain after a merge. -/
theorem Linked.symbolAt_link {symbols : List (Symbol β)}
    (h : Linked symbols p text (pre ++ l :: r :: post)) (hnd : (pre ++ l :: r :: post).Nodup)
    (i : Nat) :
    symbolAt (link symbols l r) i =
      if i = l then (symbolAt symbols l).absorb (symbolAt symbols r)
      else if i = r then (symbolAt symbols r).clear
      else if (i : Int) = (symbolAt symbols r).next then (symbolAt symbols i).setPrev l
      else symbolAt symbols i := by
  have hlr : l ≠ r := by
    rintro rfl
    exact absurd hnd (by simp [List.nodup_append])
  refine Lib.symbolAt_link (h.mem (by simp)).1 (h.mem (by simp)).1 hlr ?_ i
  intro x hx
  obtain ⟨hxl, hxr, _, hlt, _⟩ := h.next_other hnd x hx
  exact ⟨hxl, hxr, hlt⟩

theorem Linked.link {symbols : List (Symbol β)}
    (h : Linked symbols p text (pre ++ l :: r :: post)) (hnd : (pre ++ l :: r :: post).Nodup) :
    Linked (link symbols l r) p text (pre ++ l :: post) := by
  have hat := h.symbolAt_link hnd
  have hother := h.next_other hnd
  have hlen := length_link symbols l r
  generalize Lib.link symbols l r = symbols' at hat hlen
  obtain ⟨-, htail, hdisj⟩ := List.nodup_append.1 hnd
  obtain ⟨hl, htail⟩ := List.nodup_cons.1 htail
  obtain ⟨hr, hpost⟩ := List.nodup_cons.1 htail
  have hpre : ∀ i ∈ pre, symbolAt symbols' i = symbolAt symbols i := by
    intro i hi
    rw [hat, if_neg (hdisj i hi l (by simp)), if_neg (hdisj i hi r (by simp)), if_neg]
    intro hx
    exact (hother i hx.symm).2.2.1 hi
  clear hdisj hnd
  induction pre generalizing p text with
  | nil =>
    obtain ⟨hllt, hlp, hln, hlt, hl0, hlle, hrlt, hrp, hrn, hrt, hr0, hrle, hrest⟩ := h
    have hnew : symbolAt symbols' l = (symbolAt symbols l).absorb (symbolAt symbols r) := by
      rw [hat, if_pos rfl]
    rw [List.length_drop] at hrle
    rw [List.nil_append, Linked, hnew, hlen]
    refine ⟨hllt, hlp, hrn, hlt, Nat.add_pos_left hl0 _, ?_, ?_⟩
    · change (symbolAt symbols l).n + (symbolAt symbols r).n ≤ text.length
      omega
    · rw [List.drop_drop] at hrest
      rw [Symbol.absorb]
      cases post with
      | nil => exact hrest
      | cons x post =>
        obtain ⟨hxlt, hxp, hxn, hxt, hx0, hxle, hxrest⟩ := hrest
        have hx : symbolAt symbols' x = (symbolAt symbols x).setPrev l := by
          rw [hat, if_neg (by rintro rfl; simp at hl), if_neg (by rintro rfl; simp at hr),
            if_pos (show (x : Int) = _ from hrn.symm)]
        rw [Linked, hx, hlen]
        refine ⟨hxlt, rfl, hxn, hxt, hx0, hxle, hxrest.congr hlen fun i hi => ?_⟩
        rw [hat, if_neg, if_neg, if_neg]
        · intro hi'
          cases Int.natCast_inj.1 (hi'.trans hrn)
          exact (List.nodup_cons.1 hpost).1 hi
        · rintro rfl
          exact hr (List.mem_cons_of_mem _ hi)
        · rintro rfl
          exact hl (List.mem_cons_of_mem _ (List.mem_cons_of_mem _ hi))
  | cons k pre ih =>
    obtain ⟨hk, hp, hn, ht, h0, hle, hrest⟩ := h
    have hsame := hpre k List.mem_cons_self
    rw [List.cons_append, Linked, hsame, hlen]
    refine ⟨hk, hp, ?_, ht, h0, hle, ih hrest ?_ fun i hi => hpre i (List.mem_cons_of_mem _ hi)⟩
    · rw [hn]
      cases pre <;> rfl
    · intro x hx
      obtain ⟨hxl, hxr, hxk, hxlt, hpost'⟩ := hother x hx
      exact ⟨hxl, hxr, fun h => hxk (List.mem_cons_of_mem _ h), hxlt, hpost'⟩

theorem Chain.nodup {symbols : List (Symbol β)} (h : Chain symbols text live) : live.Nodup :=
  h.sorted.imp Nat.ne_of_lt

theorem Chain.link {symbols : List (Symbol β)} (h : Chain symbols text (pre ++ l :: r :: post)) :
    Chain (link symbols l r) text (pre ++ l :: post) where
  linked := h.linked.link h.nodup
  sorted := by
    refine h.sorted.sublist ?_
    exact (List.Sublist.refl pre).append ((List.sublist_cons_self r post).cons_cons l)
  dead := by
    intro i hi
    rw [h.linked.symbolAt_link h.nodup]
    have hil : i ≠ l := by
      rintro rfl
      simp at hi
    rw [if_neg hil]
    split
    case isTrue => rfl
    case isFalse hir =>
      have hdead := h.dead i (by simp_all)
      split
      case isTrue => exact hdead
      case isFalse => exact hdead

theorem Linked.piece_link {symbols : List (Symbol β)}
    (h : Linked symbols p text (pre ++ l :: r :: post)) (hnd : (pre ++ l :: r :: post).Nodup)
    (hil : i ≠ l) (hir : i ≠ r) :
    (symbolAt (Lib.link symbols l r) i).toPiece = (symbolAt symbols i).toPiece := by
  rw [h.symbolAt_link hnd, if_neg hil, if_neg hir]
  split
  case isTrue => rfl
  case isFalse => rfl

theorem Linked.text_link {symbols : List (Symbol β)}
    (h : Linked symbols p text (pre ++ l :: r :: post)) (hnd : (pre ++ l :: r :: post).Nodup)
    (i : Nat) : (symbolAt (Lib.link symbols l r) i).text = (symbolAt symbols i).text := by
  by_cases hil : i = l
  · rw [h.symbolAt_link hnd, if_pos hil, hil]
    rfl
  · by_cases hir : i = r
    · rw [h.symbolAt_link hnd, if_neg hil, if_pos hir, hir]
      rfl
    · rw [h.piece_link hnd hil hir]

theorem pieces_append (symbols : List (Symbol β)) (l₁ l₂ : List Nat) :
    pieces symbols (l₁ ++ l₂) = pieces symbols l₁ ++ pieces symbols l₂ := List.map_append

/-- The merge of two neighbours, as their pieces see it. -/
theorem pieces_link {symbols : List (Symbol β)} (h : Chain symbols text (pre ++ l :: r :: post)) :
    pieces (link symbols l r) (pre ++ l :: post) =
      mergeAt pre.length (pieces symbols (pre ++ l :: r :: post)) := by
  have hlen : pre.length = (pieces symbols pre).length := List.length_map _ |>.symm
  obtain ⟨-, htail, hdisj⟩ := List.nodup_append.1 h.nodup
  obtain ⟨hl, htail⟩ := List.nodup_cons.1 htail
  have hr := (List.nodup_cons.1 htail).1
  have hsame {live : List Nat} (hlive : ∀ i ∈ live, i ≠ l ∧ i ≠ r) :
      pieces (link symbols l r) live = pieces symbols live := by
    refine List.map_congr_left fun i hi => ?_
    rw [h.linked.piece_link h.nodup (hlive i hi).1 (hlive i hi).2]
  have hpair : (symbolAt (link symbols l r) l).str =
      (symbolAt symbols l).str ++ (symbolAt symbols r).str := by
    rw [h.linked.symbolAt_link h.nodup, if_pos rfl, Piece.str, Piece.str, Piece.str,
      h.linked.adjacent.2.2.2]
    exact List.take_add
  have hcons (symbols : List (Symbol β)) (i : Nat) (live : List Nat) :
      pieces symbols (i :: live) = (symbolAt symbols i).str :: pieces symbols live := rfl
  rw [pieces_append, pieces_append, hcons, hcons, hcons, hlen, mergeAt_append, hpair, hsame, hsame]
  · intro i hi
    constructor
    · rintro rfl
      exact hl (List.mem_cons_of_mem _ hi)
    · rintro rfl
      exact hr hi
  · intro i hi
    exact ⟨hdisj i hi l (by simp), hdisj i hi r (by simp)⟩

/-! ### The queue -/

/-- A pair was found with pieces that have not got shorter since, and if the left one is as it was
then the right one, if it is still there, stands behind it. -/
structure Recorded (S : Scheme β ε σ) (symbols : List (Symbol β)) (e : ε) (l r : Piece β) : Prop where
  found : S.found l r (S.left e) (S.right e) = some e
  left_text : l.text = (symbolAt symbols (S.left e)).text
  right_text : r.text = (symbolAt symbols (S.right e)).text
  left_pos : 0 < l.n
  contiguous : r.text = l.text.drop l.n
  left_le : (symbolAt symbols (S.left e)).n = 0 ∨ l.n ≤ (symbolAt symbols (S.left e)).n
  right_le : (symbolAt symbols (S.right e)).n = 0 ∨ r.n ≤ (symbolAt symbols (S.right e)).n
  next_eq : (symbolAt symbols (S.left e)).n = l.n → (symbolAt symbols (S.right e)).n ≠ 0 →
    (symbolAt symbols (S.left e)).next = S.right e

/-- The queue has the pairs of neighbours, those that are still to be looked at apart. -/
structure Inv (S : Scheme β ε σ) (text : List β) (live : List Nat) (missing : Nat → Nat → Prop)
    (w : Work β ε σ) : Prop where
  chain : Chain w.symbols text live
  recorded : ∀ e ∈ w.queue, ∃ l r, Recorded S w.symbols e l r
  complete : ∀ pre i j post, live = pre ++ i :: j :: post → ¬ missing i j →
    ∀ e, S.found (symbolAt w.symbols i).toPiece (symbolAt w.symbols j).toPiece i j = some e →
      e ∈ w.queue

theorem Recorded.link {S : Scheme β ε σ} {symbols : List (Symbol β)}
    (h : Recorded S symbols e p q) (hc : Chain symbols text (pre ++ l :: r :: post)) :
    Recorded S (link symbols l r) e p q := by
  have hat := hc.linked.symbolAt_link hc.nodup
  have htext := hc.linked.text_link hc.nodup
  have hl := (hc.linked.mem (i := l) (by simp)).2.1
  have hr := (hc.linked.mem (i := r) (by simp)).2.1
  have hn (i : Nat) : (symbolAt (Lib.link symbols l r) i).n =
      if i = l then (symbolAt symbols l).n + (symbolAt symbols r).n
      else if i = r then 0 else (symbolAt symbols i).n := by
    rw [hat]
    split
    · rfl
    · split
      · rfl
      · split <;> rfl
  have hgrows {i k : Nat} (hk : (symbolAt symbols i).n = 0 ∨ k ≤ (symbolAt symbols i).n) :
      (symbolAt (Lib.link symbols l r) i).n = 0 ∨ k ≤ (symbolAt (Lib.link symbols l r) i).n := by
    rw [hn]
    split
    case isTrue hi =>
      subst hi
      right
      rcases hk with hk | hk
      · omega
      · exact Nat.le_add_right_of_le hk
    case isFalse =>
      split
      case isTrue => exact .inl rfl
      case isFalse => exact hk
  refine ⟨h.found, h.left_text.trans (htext _).symm, h.right_text.trans (htext _).symm, h.left_pos,
    h.contiguous, hgrows h.left_le, hgrows h.right_le, ?_⟩
  intro hleft hright
  have hpos := h.left_pos
  have hle := h.left_le
  by_cases hel : S.left e = l
  · rw [hn, if_pos hel] at hleft
    rw [hel] at hle
    omega
  · by_cases her : S.left e = r
    · rw [hn, if_neg hel, if_pos her] at hleft
      omega
    · rw [hn, if_neg hel, if_neg her] at hleft
      have hright' : (symbolAt symbols (S.right e)).n ≠ 0 := by
        rw [hn] at hright
        split at hright
        case isTrue hi =>
          rw [hi]
          omega
        case isFalse =>
          split at hright
          case isTrue => exact absurd rfl hright
          case isFalse => exact hright
      rw [hat, if_neg hel, if_neg her]
      split
      case isTrue => exact h.next_eq hleft hright'
      case isFalse => exact h.next_eq hleft hright'

theorem tryAdd_none {S : Scheme β ε σ} (h : left = -1 ∨ right = -1) (w : Work β ε σ) :
    tryAdd S left right w = w := if_pos h

theorem tryAdd_symbols (S : Scheme β ε σ) (left right : Int) (w : Work β ε σ) :
    (tryAdd S left right w).symbols = w.symbols := by
  rw [tryAdd]
  split
  · rfl
  · dsimp only
    split <;> rfl

theorem length_queue_tryAdd (S : Scheme β ε σ) (left right : Int) (w : Work β ε σ) :
    (tryAdd S left right w).queue.length ≤ w.queue.length + 1 := by
  rw [tryAdd]
  split
  · exact Nat.le_succ _
  · dsimp only
    split
    · exact Nat.le_succ _
    · exact Nat.le_refl _

section
variable {κ : Type} [LinearOrder κ] {S : Scheme β ε σ} {key : ε → κ}
  {rank : List β → List β → Option κ}

/-- A pair of neighbours may be looked at at any time. -/
theorem Inv.tryAdd (hS : S.Lawful key rank) (h : Inv S text live missing w)
    (hlive : live = pre ++ i :: j :: post) :
    Inv S text live (fun a b => missing a b ∧ ¬ (a = i ∧ b = j)) (tryAdd S i j w) := by
  have hlinked : Linked w.symbols (-1) text (pre ++ i :: j :: post) := hlive ▸ h.chain.linked
  have hne (k : Nat) : ¬ (k : Int) = -1 := by omega
  have htry : Lib.tryAdd S i j w =
      match S.found (symbolAt w.symbols i).toPiece (symbolAt w.symbols j).toPiece i j with
      | none => w
      | some e =>
        { w with
          queue := e :: w.queue
          notes := S.note (symbolAt w.symbols i).toPiece (symbolAt w.symbols j).toPiece i j
            w.notes } := by
    rw [Lib.tryAdd, if_neg (not_or.2 ⟨hne i, hne j⟩), Int.toNat_natCast, Int.toNat_natCast]
  cases hfound : S.found (symbolAt w.symbols i).toPiece (symbolAt w.symbols j).toPiece i j with
  | none =>
    rw [hfound] at htry
    rw [htry]
    refine ⟨h.chain, h.recorded, fun pre' a b post' heq hmissing e he => ?_⟩
    by_cases hm : missing a b
    · have hab : a = i ∧ b = j := by
        by_contra hab
        exact hmissing ⟨hm, hab⟩
      rw [hab.1, hab.2, hfound] at he
      cases he
    · exact h.complete pre' a b post' heq hm e he
  | some e =>
    rw [hfound] at htry
    rw [htry]
    refine ⟨h.chain, fun e' he' => ?_, fun pre' a b post' heq hmissing e' he' => ?_⟩
    · rcases List.mem_cons.1 he' with rfl | he'
      · have hl := hS.left_eq hfound
        have hr := hS.right_eq hfound
        refine ⟨(symbolAt w.symbols i).toPiece, (symbolAt w.symbols j).toPiece, ?_, ?_, ?_,
          (hlinked.mem (by simp)).2.1, hlinked.adjacent.2.2.2, ?_, ?_, fun _ _ => ?_⟩
        · rw [hl, hr, hfound]
        · rw [hl]
        · rw [hr]
        · rw [hl]
          exact .inr (Nat.le_refl _)
        · rw [hr]
          exact .inr (Nat.le_refl _)
        · rw [hl, hr]
          exact hlinked.adjacent.1
      · exact h.recorded e' he'
    · by_cases hm : missing a b
      · have hab : a = i ∧ b = j := by
          by_contra hab
          exact hmissing ⟨hm, hab⟩
        rw [hab.1, hab.2, hfound] at he'
        cases he'
        exact List.mem_cons_self
      · exact List.mem_cons_of_mem _ (h.complete pre' a b post' heq hm e' he')

/-- A pair is in date if and only if its pieces are there as they were, and then they are
neighbours. -/
theorem Recorded.fresh (hS : S.Lawful key rank) {symbols : List (Symbol β)}
    (h : Recorded S symbols e p q) (hc : Chain symbols text live)
    (hl : (symbolAt symbols (S.left e)).n ≠ 0) (hr : (symbolAt symbols (S.right e)).n ≠ 0)
    (hfresh : S.outdated (symbolAt symbols (S.left e)).toPiece
      (symbolAt symbols (S.right e)).toPiece e = false) :
    p = (symbolAt symbols (S.left e)).toPiece ∧ q = (symbolAt symbols (S.right e)).toPiece ∧
      ∃ pre post, live = pre ++ S.left e :: S.right e :: post := by
  have hmem {i : Nat} (hi : (symbolAt symbols i).n ≠ 0) : i ∈ live := by
    by_contra hi'
    exact hi (hc.dead i hi')
  obtain ⟨_, _, hlle⟩ := hc.linked.mem (hmem hl)
  obtain ⟨_, _, hrle⟩ := hc.linked.mem (hmem hr)
  obtain ⟨hln, hrn⟩ := (hS.outdated_eq h.found h.contiguous h.left_text.symm h.right_text.symm
    (h.left_le.resolve_left hl) (h.left_text ▸ hlle) (h.right_le.resolve_left hr)
    (h.right_text ▸ hrle)).1 hfresh
  refine ⟨?_, ?_, ?_⟩
  · cases p
    exact congr (congrArg Piece.mk h.left_text) hln.symm
  · cases q
    exact congr (congrArg Piece.mk h.right_text) hrn.symm
  · have hnext := h.next_eq hln hr
    obtain ⟨pre, post, hlive⟩ := List.append_of_mem (hmem hl)
    cases post with
    | nil =>
      have hend := (hlive ▸ hc.linked).next_eq
      rw [hend] at hnext
      exact absurd hnext (by rw [nextOf]; omega)
    | cons j post =>
      have hend := (hlive ▸ hc.linked).next_eq
      rw [hend] at hnext
      cases Int.natCast_inj.1 hnext
      exact ⟨pre, post, hlive⟩

/-- The pair of two neighbours is never out of date. -/
theorem Chain.not_outdated (hS : S.Lawful key rank) {symbols : List (Symbol β)}
    (hc : Chain symbols text (pre ++ i :: j :: post))
    (he : S.found (symbolAt symbols i).toPiece (symbolAt symbols j).toPiece i j = some e) :
    S.outdated (symbolAt symbols i).toPiece (symbolAt symbols j).toPiece e = false :=
  (hS.outdated_eq he hc.linked.adjacent.2.2.2 rfl rfl (Nat.le_refl _)
    (hc.linked.mem (by simp)).2.2 (Nat.le_refl _) (hc.linked.mem (by simp)).2.2).2 ⟨rfl, rfl⟩

theorem Inv.skip (hS : S.Lawful key rank) (h : Inv S text live (fun _ _ => False) w)
    (hpop : w.queue.Perm (e :: queue))
    (hstale : (symbolAt w.symbols (S.left e)).n = 0 ∨ (symbolAt w.symbols (S.right e)).n = 0 ∨
      S.outdated (symbolAt w.symbols (S.left e)).toPiece
        (symbolAt w.symbols (S.right e)).toPiece e = true) :
    Inv S text live (fun _ _ => False) { w with queue := queue } where
  chain := h.chain
  recorded := fun e' he' => h.recorded e' (hpop.mem_iff.2 (List.mem_cons_of_mem _ he'))
  complete := by
    intro pre i j post hlive hmissing e' he'
    have hc : Chain w.symbols text (pre ++ i :: j :: post) := hlive ▸ h.chain
    rcases List.mem_cons.1 (hpop.mem_iff.1 (h.complete pre i j post hlive hmissing e' he')) with
      rfl | hin
    · have hleft := hS.left_eq he'
      have hright := hS.right_eq he'
      have hdate := hc.not_outdated hS he'
      rw [hleft, hright, hdate] at hstale
      rcases hstale with hl | hr | hout
      · exact absurd hl (Nat.ne_of_gt (hc.linked.mem (by simp)).2.1)
      · exact absurd hr (Nat.ne_of_gt (hc.linked.mem (by simp)).2.1)
      · cases hout
    · exact hin

/-- Neighbours after a merge that leave the merged piece out were neighbours before. -/
theorem adjacent_of_merged {pre post p q : List Nat} (h : pre ++ l :: post = p ++ a :: b :: q)
    (ha : a ≠ l) (hb : b ≠ l) :
    ∃ p' q', pre ++ l :: r :: post = p' ++ a :: b :: q' := by
  rcases List.append_eq_append_iff.1 h with ⟨c, hp, hc⟩ | ⟨c, hpre, hc⟩
  · cases c with
    | nil => exact absurd (List.cons.inj hc).1.symm ha
    | cons x c =>
      obtain ⟨rfl, rfl⟩ := List.cons.inj hc
      exact ⟨pre ++ l :: r :: c, q, by simp⟩
  · cases c with
    | nil => exact absurd (List.cons.inj hc).1 ha
    | cons x c =>
      obtain ⟨hx, htail⟩ := List.cons.inj hc
      cases c with
      | nil => exact absurd (List.cons.inj htail).1 hb
      | cons y c =>
        obtain ⟨hy, hq⟩ := List.cons.inj htail
        exact ⟨p, c ++ l :: r :: post, by simp [hpre, hx, hy]⟩

/-- A place stands at one place of the chain. -/
theorem Chain.split_eq {symbols : List (Symbol β)} (hc : Chain symbols text (pre ++ i :: post))
    (h : pre ++ i :: post = pre' ++ i :: post') : pre = pre' ∧ post = post' := by
  obtain ⟨-, htail, hdisj⟩ := List.nodup_append.1 hc.nodup
  have hpre : i ∉ pre := fun hi => hdisj i hi i List.mem_cons_self rfl
  obtain ⟨h₁, _, h₂⟩ := (List.append_cons_inj_of_notMem hpre (List.nodup_cons.1 htail).1).1 h
  exact ⟨h₁, h₂⟩

/-- After the merge of two neighbours the pairs of the merged piece are missing. -/
theorem Inv.link (hS : S.Lawful key rank)
    (h : Inv S text (pre ++ l :: r :: post) (fun _ _ => False) w)
    (hpop : w.queue.Perm (e :: queue)) (hleft : S.left e = l) :
    Inv S text (pre ++ l :: post) (fun a b => a = l ∨ b = l)
      { w with queue := queue, symbols := link w.symbols l r } where
  chain := h.chain.link
  recorded := by
    intro e' he'
    obtain ⟨p, q, hr⟩ := h.recorded e' (hpop.mem_iff.2 (List.mem_cons_of_mem _ he'))
    exact ⟨p, q, hr.link h.chain⟩
  complete := by
    intro pre' i j post' hlive hmissing e' he'
    obtain ⟨hi, hj⟩ := not_or.1 hmissing
    have hnotin : r ∉ pre ++ l :: post := by
      obtain ⟨-, htail, hdisj⟩ := List.nodup_append.1 h.chain.nodup
      obtain ⟨hl, htail⟩ := List.nodup_cons.1 htail
      intro hr
      rcases List.mem_append.1 hr with hr | hr
      · exact hdisj r hr r (by simp) rfl
      · rcases List.mem_cons.1 hr with rfl | hr
        · exact hl List.mem_cons_self
        · exact (List.nodup_cons.1 htail).1 hr
    have hir : i ≠ r := by
      rintro rfl
      exact hnotin (by simp [hlive])
    have hjr : j ≠ r := by
      rintro rfl
      exact hnotin (by simp [hlive])
    dsimp only at he'
    rw [h.chain.linked.piece_link h.chain.nodup hi hir,
      h.chain.linked.piece_link h.chain.nodup hj hjr] at he'
    obtain ⟨p, q, hold⟩ := adjacent_of_merged (r := r) hlive hi hj
    rcases List.mem_cons.1 (hpop.mem_iff.1 (h.complete p i j q hold (fun h => h) e' he')) with
      rfl | hin
    · exact absurd ((hS.left_eq he').symm.trans hleft) hi
    · exact hin

theorem Inv.weaken (h : Inv S text live missing w)
    (hm : ∀ pre i j post, live = pre ++ i :: j :: post → missing i j → missing' i j) :
    Inv S text live missing' w :=
  ⟨h.chain, h.recorded, fun pre i j post hlive hn =>
    h.complete pre i j post hlive fun hmi => hn (hm pre i j post hlive hmi)⟩

/-- The pairs of the merged piece are looked at, the one to its left first. -/
theorem Inv.tryAdd_both (hS : S.Lawful key rank)
    (h : Inv S text (pre ++ l :: post) (fun a b => a = l ∨ b = l) w) :
    Inv S text (pre ++ l :: post) (fun _ _ => False)
      (Lib.tryAdd S l (symbolAt w.symbols l).next
        (Lib.tryAdd S (symbolAt w.symbols l).prev l w)) := by
  have hleft : Inv S text (pre ++ l :: post) (fun a _ => a = l)
      (Lib.tryAdd S (symbolAt w.symbols l).prev l w) := by
    rw [h.chain.linked.prev_eq]
    rcases List.eq_nil_or_concat pre with rfl | ⟨pre, i, rfl⟩
    · rw [List.getLast?_nil, Option.map_none, Option.getD_none, tryAdd_none (.inl rfl)]
      refine h.weaken fun pre a b post' heq hab => hab.resolve_right ?_
      rintro rfl
      have hsplit : [] ++ b :: post = (pre ++ [a]) ++ b :: post' := by
        rw [heq, List.append_assoc]
        rfl
      obtain ⟨hnil, _⟩ := h.chain.split_eq hsplit
      cases pre <;> cases hnil
    · rw [List.concat_eq_append] at h ⊢
      rw [List.getLast?_concat, Option.map_some, Option.getD_some]
      refine (h.tryAdd hS (List.append_assoc pre [i] (l :: post))).weaken ?_
      rintro pre' a b post' heq ⟨hab, hne⟩
      refine hab.resolve_right ?_
      rintro rfl
      refine hne ⟨?_, rfl⟩
      have hsplit : (pre ++ [i]) ++ b :: post = (pre' ++ [a]) ++ b :: post' := by
        rw [heq, List.append_assoc]
        rfl
      obtain ⟨hpre, _⟩ := h.chain.split_eq hsplit
      exact (List.singleton_inj.1 (List.append_inj' hpre rfl).2).symm
  have hnext : (symbolAt (Lib.tryAdd S (symbolAt w.symbols l).prev l w).symbols l).next =
      nextOf post := hleft.chain.linked.next_eq
  rw [tryAdd_symbols] at hnext
  rw [hnext]
  cases post with
  | nil =>
    rw [nextOf, tryAdd_none (.inr rfl)]
    refine hleft.weaken fun pre' a b post' heq hab => ?_
    subst hab
    cases (h.chain.split_eq heq).2
  | cons j post =>
    refine (hleft.tryAdd hS rfl).weaken ?_
    rintro pre' a b post' heq ⟨rfl, hne⟩
    cases (h.chain.split_eq heq).2
    exact hne ⟨rfl, rfl⟩

/-! ### The loop -/

theorem length_le_of_sorted {pre post q rest : List Nat}
    (hs : (pre ++ l :: post).Pairwise (· < ·)) (heq : pre ++ l :: post = q ++ i :: rest)
    (hle : l ≤ i) : pre.length ≤ q.length := by
  rcases List.append_eq_append_iff.1 heq with ⟨c, hq, _⟩ | ⟨c, hpre, hc⟩
  · rw [hq, List.length_append]
    exact Nat.le_add_right _ _
  · cases c with
    | nil => exact Nat.le_of_eq (congrArg List.length (hpre.trans (List.append_nil q)))
    | cons x c =>
      obtain ⟨rfl, _⟩ := List.cons.inj hc
      obtain ⟨_, _, hlt⟩ := List.pairwise_append.1 hs
      have hil := hlt i (by simp [hpre]) l List.mem_cons_self
      omega

/-- What the queue gives first is the best pair of the chain. -/
theorem Inv.bestPair_eq (hS : S.Lawful key rank)
    (h : Inv S text (pre ++ l :: r :: post) (fun _ _ => False) w)
    (he : S.found (symbolAt w.symbols l).toPiece (symbolAt w.symbols r).toPiece l r = some e)
    (hfirst : ∀ e' ∈ w.queue, S.before e e' = true) :
    bestPair rank (pieces w.symbols (pre ++ l :: r :: post)) = some (key e, pre.length) := by
  have hlen : (pieces w.symbols pre).length = pre.length := List.length_map _
  have hrank : rank (symbolAt w.symbols l).str (symbolAt w.symbols r).str = some (key e) := by
    rw [← hS.rank_eq h.chain.linked.adjacent.2.2.2, he]
    rfl
  rw [pieces_append, ← hlen]
  refine bestPair_eq_some hrank fun pre' a b post' k heq hk => ?_
  have hsplit : pieces w.symbols (pre ++ l :: r :: post) = pre' ++ a :: b :: post' := by
    rw [pieces_append]
    exact heq
  obtain ⟨q, rest, hlive, rfl, hrest⟩ := List.map_eq_append_iff.1 hsplit
  obtain ⟨i, rest, rfl, rfl, hrest'⟩ := List.map_eq_cons_iff.1 hrest
  obtain ⟨j, rest, rfl, rfl, rfl⟩ := List.map_eq_cons_iff.1 hrest'
  have hchain : Chain w.symbols text (q ++ i :: j :: rest) := hlive ▸ h.chain
  rw [← hS.rank_eq (i := i) (j := j) hchain.linked.adjacent.2.2.2, Option.map_eq_some_iff] at hk
  obtain ⟨e', he', rfl⟩ := hk
  have hin := h.complete q i j rest hlive (fun h => h) e' he'
  rcases hS.before_iff.1 (hfirst e' hin) with hlt | ⟨heq, hle⟩
  · exact .inl hlt
  · rw [hS.left_eq he, hS.left_eq he'] at hle
    refine .inr ⟨heq, ?_⟩
    rw [hlen, List.length_map]
    exact length_le_of_sorted h.chain.sorted hlive hle

/-- With enough turns the loop ends, and leaves what merging the best pair of all leaves. -/
theorem Inv.loop (hS : S.Lawful key rank) (h : Inv S text live (fun _ _ => False) w) (fuel : Nat)
    (hfuel : w.queue.length + 2 * live.length < fuel) :
    ∃ w' live', mergeLoop S fuel w = some w' ∧ Inv S text live' (fun _ _ => False) w' ∧
      pieces w'.symbols live' = greedyMerge rank (pieces w.symbols live) ∧
      live'.head? = live.head? ∧ w'.symbols.length = w.symbols.length := by
  have htotal (x y : ε) : S.before x y = true ∨ S.before y x = true := by
    rw [hS.before_iff, hS.before_iff]
    rcases lt_trichotomy (key x) (key y) with hlt | heq | hlt
    · exact .inl (.inl hlt)
    · rcases Nat.le_total (S.left x) (S.left y) with hle | hle
      · exact .inl (.inr ⟨heq, hle⟩)
      · exact .inr (.inr ⟨heq.symm, hle⟩)
    · exact .inr (.inl hlt)
  have htrans {x y z : ε} (hxy : S.before x y = true) (hyz : S.before y z = true) :
      S.before x z = true := by
    rw [hS.before_iff] at hxy hyz ⊢
    rcases hxy with hxy | ⟨hxy, hxy'⟩
    · rcases hyz with hyz | ⟨hyz, _⟩
      · exact .inl (lt_trans hxy hyz)
      · exact .inl (hyz ▸ hxy)
    · rcases hyz with hyz | ⟨hyz, hyz'⟩
      · exact .inl (hxy ▸ hyz)
      · exact .inr ⟨hxy.trans hyz, Nat.le_trans hxy' hyz'⟩
  induction fuel generalizing live w with
  | zero => exact absurd hfuel (Nat.not_lt_zero _)
  | succ fuel ih =>
    rw [mergeLoop]
    cases hpop : popMin S.before w.queue with
    | none =>
      have hempty : w.queue = [] := (popMin_none_iff _).1 hpop
      refine ⟨w, live, rfl, h, ?_, rfl, rfl⟩
      refine (greedyMerge_eq_self (bestPair_eq_none fun pre' a b post' heq => ?_)).symm
      obtain ⟨q, rest, rfl, rfl, hrest⟩ := List.map_eq_append_iff.1 heq
      obtain ⟨i, rest, rfl, rfl, hrest'⟩ := List.map_eq_cons_iff.1 hrest
      obtain ⟨j, rest, rfl, rfl, rfl⟩ := List.map_eq_cons_iff.1 hrest'
      rw [← hS.rank_eq (i := i) (j := j) h.chain.linked.adjacent.2.2.2, Option.map_eq_none_iff]
      by_contra hfound
      obtain ⟨e, he⟩ := Option.ne_none_iff_exists'.1 hfound
      have hin := h.complete q i j rest rfl (fun h => h) e he
      rw [hempty] at hin
      cases hin
    | some popped =>
      obtain ⟨e, queue⟩ := popped
      have hperm := popMin_perm hpop
      have hlen := popMin_length hpop
      dsimp only
      by_cases hstale : (symbolAt w.symbols (S.left e)).n = 0 ∨
          (symbolAt w.symbols (S.right e)).n = 0 ∨
          S.outdated (symbolAt w.symbols (S.left e)).toPiece
            (symbolAt w.symbols (S.right e)).toPiece e = true
      · have hskip : mergeEntry S e { w with queue := queue } = { w with queue := queue } :=
          if_pos hstale
        rw [hskip]
        exact ih (h.skip hS hperm hstale) (by dsimp only; omega)
      · obtain ⟨p, q, hrec⟩ := h.recorded e (mem_of_popMin hpop)
        obtain ⟨hl, hstale'⟩ := not_or.1 hstale
        obtain ⟨hr, hout⟩ := not_or.1 hstale'
        obtain ⟨rfl, rfl, pre, post, rfl⟩ :=
          hrec.fresh hS h.chain hl hr (Bool.eq_false_iff.2 hout)
        have hbest := h.bestPair_eq hS hrec.found fun e' he' =>
          popMin_le htotal htrans hpop he'
        have hnext := (h.link hS hperm rfl).tryAdd_both hS
        have hmerge : mergeEntry S e { w with queue := queue } =
            Lib.tryAdd S (S.left e) (symbolAt (Lib.link w.symbols (S.left e) (S.right e))
                (S.left e)).next
              (Lib.tryAdd S (symbolAt (Lib.link w.symbols (S.left e) (S.right e))
                (S.left e)).prev (S.left e)
                { w with
                  queue := queue
                  symbols := Lib.link w.symbols (S.left e) (S.right e) }) := if_neg hstale
        rw [← hmerge] at hnext
        have hqueue : (mergeEntry S e { w with queue := queue }).queue.length ≤
            queue.length + 1 + 1 := by
          rw [hmerge]
          exact Nat.le_trans (length_queue_tryAdd _ _ _ _)
            (Nat.succ_le_succ (length_queue_tryAdd _ _ _ _))
        obtain ⟨w', live', hloop, hinv, hpieces, hhead, hlength⟩ := ih hnext (by
          simp only [List.length_append, List.length_cons] at hfuel ⊢
          omega)
        refine ⟨w', live', hloop, hinv, ?_, ?_, ?_⟩
        · rw [hpieces, greedyMerge_eq hbest, ← pieces_link h.chain, hmerge, tryAdd_symbols,
            tryAdd_symbols]
        · rw [hhead]
          cases pre <;> rfl
        · rw [hlength, hmerge, tryAdd_symbols, tryAdd_symbols]
          exact length_link _ _ _


theorem tryAdd_notes {N : σ → Prop}
    (hN : ∀ l r i j e notes, S.found l r i j = some e → N notes → N (S.note l r i j notes))
    (left right : Int) (h : N w.notes) : N (Lib.tryAdd S left right w).notes := by
  rw [Lib.tryAdd]
  split
  · exact h
  · dsimp only
    split
    · exact h
    · rename_i hfound
      exact hN _ _ _ _ _ _ hfound h

/-- What holds of the notes whatever pair is written down holds at the end. -/
theorem mergeLoop_notes {N : σ → Prop}
    (hN : ∀ l r i j e notes, S.found l r i j = some e → N notes → N (S.note l r i j notes))
    (h : N w.notes) (hloop : mergeLoop S fuel w = some w') : N w'.notes := by
  induction fuel generalizing w with
  | zero => cases hloop
  | succ fuel ih =>
    rw [mergeLoop] at hloop
    split at hloop
    · cases hloop
      exact h
    · refine ih ?_ hloop
      rw [mergeEntry]
      dsimp only
      split
      · exact h
      · exact tryAdd_notes hN _ _ (tryAdd_notes hN _ _ h)

end

end ActQuant.Lib
