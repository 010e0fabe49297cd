import ActQuant.Lib.LazyMerge
import Mathlib.Data.List.GetD
import Mathlib.Data.List.Perm.Subperm

namespace ActQuant.Tokenizer
open ActQuant.Lib

/-! The characters of a text as the symbols of a merge. -/

/-- `unicode_len_utf8`. -/
def unicodeLenUtf8 (src : UInt8) : Nat :=
  [1, 1, 1, 1, 1, 1, 1, 1, 1, 1, 1, 1, 2, 2, 3, 4].getD (src.toNat / 16) 1

/-- The length of the next character, cut off at the end of the text. -/
def nextLen (text : List UInt8) : Nat :=
  min (unicodeLenUtf8 (text.headD 0)) text.length

/-- The loop that splits a text into characters; each turn takes at least one byte. -/
def splitSymbols : Nat → Nat → List UInt8 → List (Symbol UInt8)
  | 0, _, _ => []
  | fuel + 1, index, text =>
    if text = [] then []
    else
      let n := nextLen text
      ⟨⟨text, n⟩, (index : Int) - 1, if n = text.length then -1 else index + 1⟩ ::
        splitSymbols fuel (index + 1) (text.drop n)

/-- `llm_symbol` for each character of a text. -/
def symbolsOf (text : List UInt8) : List (Symbol UInt8) := splitSymbols text.length 0 text

/-- The pair that ends at a place. -/
def seedPair (S : Scheme UInt8 ε σ) (w : Work UInt8 ε σ) (i : Nat) : Work UInt8 ε σ :=
  tryAdd S ((i : Int) - 1) i w

/-- The pairs of neighbours, one after the other. -/
def seedPairs (S : Scheme UInt8 ε σ) (w : Work UInt8 ε σ) : Work UInt8 ε σ :=
  (List.range' 1 (w.symbols.length - 1)).foldl (seedPair S) w

theorem unicodeLenUtf8_pos (src : UInt8) : 0 < unicodeLenUtf8 src := by
  have hall : ∀ x ∈ [1, 1, 1, 1, 1, 1, 1, 1, 1, 1, 1, 1, 2, 2, 3, 4], 0 < x := by decide
  have hlt : src.toNat / 16 < 16 := by
    have := src.toNat_lt
    omega
  rw [unicodeLenUtf8, List.getD_eq_getElem _ _ hlt]
  exact hall _ (List.getElem_mem hlt)

theorem nextLen_pos (h : text ≠ []) : 0 < nextLen text :=
  Nat.lt_min.2 ⟨unicodeLenUtf8_pos _, List.length_pos_iff.2 h⟩

theorem nextLen_le (text : List UInt8) : nextLen text ≤ text.length := Nat.min_le_right _ _

theorem splitSymbols_eq_nil {text : List UInt8} (index : Nat) (h : text.length ≤ fuel) :
    splitSymbols fuel index text = [] ↔ text = [] := by
  cases fuel with
  | zero => exact iff_of_true rfl (List.length_eq_zero_iff.1 (Nat.le_zero.1 h))
  | succ fuel =>
    rw [splitSymbols]
    split
    case isTrue htext => exact iff_of_true rfl htext
    case isFalse htext => exact iff_of_false (List.cons_ne_nil _ _) htext

theorem linked_splitSymbols {text : List UInt8} (hfuel : text.length ≤ fuel)
    (pre : List (Symbol UInt8)) :
    Linked (pre ++ splitSymbols fuel pre.length text) ((pre.length : Int) - 1) text
      (List.range' pre.length (splitSymbols fuel pre.length text).length) := by
  induction fuel generalizing pre text with
  | zero => exact List.length_eq_zero_iff.1 (Nat.le_zero.1 hfuel)
  | succ fuel ih =>
    by_cases htext : text = []
    · rw [splitSymbols, if_pos htext]
      exact htext
    · have hpos := nextLen_pos htext
      have hle := nextLen_le text
      have hdrop : (text.drop (nextLen text)).length ≤ fuel := by
        rw [List.length_drop]
        omega
      have hrest := ih hdrop (pre ++ [⟨⟨text, nextLen text⟩, (pre.length : Int) - 1,
        if nextLen text = text.length then -1 else pre.length + 1⟩])
      rw [List.length_append, List.length_singleton, List.append_assoc] at hrest
      rw [splitSymbols, if_neg htext]
      dsimp only at hrest ⊢
      generalize hs : splitSymbols fuel (pre.length + 1) (text.drop (nextLen text)) = rest at hrest ⊢
      have hat : symbolAt (pre ++ ⟨⟨text, nextLen text⟩, (pre.length : Int) - 1,
          if nextLen text = text.length then -1 else pre.length + 1⟩ :: rest) pre.length =
            ⟨⟨text, nextLen text⟩, (pre.length : Int) - 1,
              if nextLen text = text.length then -1 else pre.length + 1⟩ := by
        rw [symbolAt, List.getD_eq_getElem?_getD, List.getElem?_append_right (Nat.le_refl _),
          Nat.sub_self]
        rfl
      rw [List.length_cons, List.range'_succ, Linked, hat]
      refine ⟨?_, rfl, ?_, rfl, hpos, hle, ?_⟩
      · rw [List.length_append, List.length_cons]
        omega
      · have hnil := splitSymbols_eq_nil (pre.length + 1) hdrop
        rw [hs, List.drop_eq_nil_iff] at hnil
        cases rest with
        | nil => exact if_pos (Nat.le_antisymm hle (hnil.1 rfl))
        | cons s rest =>
          rw [if_neg, List.length_cons, List.range'_succ, nextOf]
          · exact (Int.natCast_add_one _).symm
          · intro heq
            cases hnil.2 (Nat.le_of_eq heq.symm)
      · rw [Int.natCast_add_one, Int.add_sub_cancel] at hrest
        exact hrest

theorem chain_symbolsOf (text : List UInt8) :
    Chain (symbolsOf text) text (List.range (symbolsOf text).length) where
  linked := by
    have h := linked_splitSymbols (Nat.le_refl text.length) []
    rw [List.range_eq_range']
    exact h
  sorted := List.pairwise_lt_range
  dead := by
    intro i hi
    rw [List.mem_range, Nat.not_lt] at hi
    rw [symbolAt, List.getD_eq_default _ _ hi]

theorem symbolsOf_ne_nil (h : text ≠ []) : symbolsOf text ≠ [] :=
  fun hnil => h ((splitSymbols_eq_nil 0 (Nat.le_refl _)).1 hnil)

theorem adjacent_range {pre post : List Nat} (h : List.range n = pre ++ a :: b :: post) :
    b = a + 1 ∧ b < n := by
  have hlen := congrArg List.length h
  rw [List.length_range, List.length_append, List.length_cons, List.length_cons] at hlen
  have hat (i : Nat) (hi : i < n) : (pre ++ a :: b :: post)[i]? = some i := by
    rw [← h, List.getElem?_range hi]
  have ha := hat pre.length (by omega)
  have hb := hat (pre.length + 1) (by omega)
  rw [List.getElem?_append_right (Nat.le_refl _), Nat.sub_self] at ha
  rw [List.getElem?_append_right (by omega), Nat.add_sub_cancel_left] at hb
  cases Option.some.inj ha
  cases Option.some.inj hb
  omega

section
variable {κ ε σ : Type} [LinearOrder κ] {S : Scheme UInt8 ε σ} {key : ε → κ}
  {rank : List UInt8 → List UInt8 → Option κ}

theorem inv_seedPairs (hS : S.Lawful key rank) {w : Work UInt8 ε σ}
    (hchain : Chain w.symbols text (List.range w.symbols.length)) (hqueue : w.queue = []) :
    Inv S text (List.range w.symbols.length) (fun _ _ => False) (seedPairs S w) ∧
      (seedPairs S w).symbols = w.symbols ∧
      (seedPairs S w).queue.length ≤ w.symbols.length - 1 := by
  have hall (m k : Nat) (v : Work UInt8 ε σ) (hsymbols : v.symbols = w.symbols)
      (hbound : k + m = w.symbols.length - 1)
      (h : Inv S text (List.range w.symbols.length) (fun _ b => k < b) v) :
      Inv S text (List.range w.symbols.length) (fun _ _ => False)
          ((List.range' (k + 1) m).foldl (seedPair S) v) ∧
        ((List.range' (k + 1) m).foldl (seedPair S) v).symbols =
          w.symbols ∧
        ((List.range' (k + 1) m).foldl (seedPair S) v).queue.length ≤
          v.queue.length + m := by
    induction m generalizing k v with
    | zero =>
      refine ⟨h.weaken fun pre a b post hlive hb => ?_, hsymbols, Nat.le_refl _⟩
      obtain ⟨_, hlt⟩ := adjacent_range hlive
      omega
    | succ m ih =>
      have hsplit : List.range w.symbols.length =
          List.range k ++ k :: (k + 1) :: List.range' (k + 2) (w.symbols.length - (k + 2)) := by
        have hlen : w.symbols.length = k + (w.symbols.length - (k + 2) + 1 + 1) := by omega
        have happ : List.range (k + (w.symbols.length - (k + 2) + 1 + 1)) =
            List.range k ++ (List.range (w.symbols.length - (k + 2) + 1 + 1)).map (k + ·) :=
          List.range_add
        rw [← hlen] at happ
        rw [happ, ← List.range'_eq_map_range, List.range'_succ, List.range'_succ]
      have hone := h.tryAdd hS hsplit
      have hnext := ih (k + 1) (tryAdd S k (k + 1 : Nat) v) ((tryAdd_symbols _ _ _ _).trans hsymbols)
        (by omega) (hone.weaken fun pre a b post hlive hab => by
          obtain ⟨hsucc, _⟩ := adjacent_range hlive
          obtain ⟨hlt, hne⟩ := hab
          omega)
      have hcast : ((k + 1 : Nat) : Int) - 1 = k := by omega
      rw [List.range'_succ, List.foldl_cons, seedPair, hcast]
      refine ⟨hnext.1, hnext.2.1, Nat.le_trans hnext.2.2 ?_⟩
      have hlen := length_queue_tryAdd S k (k + 1 : Nat) v
      omega
  have hstart : Inv S text (List.range w.symbols.length) (fun _ b => 0 < b) w := by
    refine ⟨hchain, fun e he => ?_, fun pre a b post hlive hb => ?_⟩
    · rw [hqueue] at he
      cases he
    · obtain ⟨hsucc, _⟩ := adjacent_range hlive
      omega
  have h := hall (w.symbols.length - 1) 0 w rfl (Nat.zero_add _) hstart
  rw [hqueue, List.length_nil, Nat.zero_add, Nat.zero_add] at h
  exact h

/-- How often the loop may turn. -/
def mergeFuelOf (w : Work UInt8 ε σ) : Nat := 3 * w.symbols.length + 1

/-- The pairs are seeded, and the loop is run until the queue is empty. -/
def mergeSymbols (S : Scheme UInt8 ε σ) (w : Work UInt8 ε σ) : Option (Work UInt8 ε σ) :=
  mergeLoop S (mergeFuelOf w) (seedPairs S w)

/-- The loop ends, and what it leaves is what merging the best pair of all leaves. -/
theorem mergeSymbols_greedy (hS : S.Lawful key rank) {w : Work UInt8 ε σ}
    (hchain : Chain w.symbols text (List.range w.symbols.length)) (hqueue : w.queue = []) :
    ∃ w' live, mergeSymbols S w = some w' ∧ Chain w'.symbols text live ∧
      pieces w'.symbols live =
        greedyMerge rank (pieces w.symbols (List.range w.symbols.length)) ∧
      live.head? = (List.range w.symbols.length).head? ∧ w'.symbols.length = w.symbols.length := by
  obtain ⟨hinv, hsymbols, hlen⟩ := inv_seedPairs hS hchain hqueue
  obtain ⟨w', live, hloop, hinv', hpieces, hhead, hlength⟩ := hinv.loop hS
    (mergeFuelOf w) (by
      rw [mergeFuelOf, List.length_range]
      omega)
  rw [hsymbols] at hpieces hlength
  exact ⟨w', live, hloop, hinv'.chain, hpieces, hhead, hlength⟩

theorem mergeSymbols_notes {N : σ → Prop}
    (hN : ∀ l r i j e notes, S.found l r i j = some e → N notes → N (S.note l r i j notes))
    (h : N w.notes) (hloop : mergeSymbols S w = some w') : N w'.notes := by
  have hseed (places : List Nat) (v : Work UInt8 ε σ) (hv : N v.notes) :
      N (places.foldl (seedPair S) v).notes := by
    induction places generalizing v with
    | nil => exact hv
    | cons i places ih => exact ih _ (tryAdd_notes hN _ _ hv)
  exact mergeLoop_notes hN (hseed _ w h) hloop

end

/-! ### Going through the chain -/

/-- The places from one on, as the chain has them. -/
def walk (symbols : List (Symbol β)) : Nat → Int → List Nat
  | 0, _ => []
  | fuel + 1, i =>
    if i = -1 then []
    else i.toNat :: walk symbols fuel (symbolAt symbols i.toNat).next

theorem walk_eq {symbols : List (Symbol β)} (h : Linked symbols p text live)
    (hfuel : live.length ≤ fuel) : walk symbols fuel (nextOf live) = live := by
  induction live generalizing p text fuel with
  | nil => cases fuel <;> rfl
  | cons i rest ih =>
    obtain ⟨fuel, rfl⟩ : ∃ k, fuel = k + 1 := ⟨fuel - 1, by rw [List.length_cons] at hfuel; omega⟩
    obtain ⟨_, _, hn, _, _, _, hrest⟩ := h
    rw [nextOf, walk, if_neg (by omega), Int.toNat_natCast, hn,
      ih hrest (Nat.le_of_succ_le_succ hfuel)]

theorem length_live_le {symbols : List (Symbol β)} (h : Chain symbols text live) :
    live.length ≤ symbols.length := by
  have hsub : live ⊆ List.range symbols.length :=
    fun i hi => List.mem_range.2 (h.linked.mem hi).1
  have hlen := (List.subperm_of_subset h.nodup hsub).length_le
  rwa [List.length_range] at hlen

/-- The characters of a text. -/
def charsFuel : Nat → List UInt8 → List (List UInt8)
  | 0, _ => []
  | fuel + 1, text =>
    if text = [] then []
    else text.take (nextLen text) :: charsFuel fuel (text.drop (nextLen text))

def charsOf (text : List UInt8) : List (List UInt8) := charsFuel text.length text

theorem pieces_all (symbols : List (Symbol β)) :
    pieces symbols (List.range symbols.length) = symbols.map fun s => s.str := by
  refine List.ext_getElem? fun i => ?_
  rw [pieces, List.getElem?_map, List.getElem?_map]
  by_cases hi : i < symbols.length
  · rw [List.getElem?_range hi, Option.map_some, symbolAt, List.getD_eq_getElem?_getD,
      List.getElem?_eq_getElem hi]
    rfl
  · rw [List.getElem?_eq_none (by rwa [List.length_range, ← Nat.not_lt]),
      List.getElem?_eq_none (Nat.not_lt.1 hi)]
    rfl

theorem map_str_splitSymbols (fuel index : Nat) (text : List UInt8) :
    ((splitSymbols fuel index text).map fun s => s.str) = charsFuel fuel text := by
  induction fuel generalizing index text with
  | zero => rfl
  | succ fuel ih =>
    rw [splitSymbols, charsFuel]
    split
    · rfl
    · rw [List.map_cons, ih]
      rfl

/-- At the start each character is a piece. -/
theorem pieces_symbolsOf (text : List UInt8) :
    pieces (symbolsOf text) (List.range (symbolsOf text).length) = charsOf text := by
  rw [pieces_all]
  exact map_str_splitSymbols _ _ _

theorem flatten_charsOf (text : List UInt8) : (charsOf text).flatten = text := by
  rw [← pieces_symbolsOf]
  exact flatten_pieces (chain_symbolsOf text).linked

end ActQuant.Tokenizer
