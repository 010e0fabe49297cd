import ActQuant.Lib.Chars

namespace ActQuant.Gguf
open Lib

inductive Kind where
  | attnQ | attnK | attnV | attnOutput | ffnGate | ffnUp | ffnDown
  deriving DecidableEq

def Kind.name : Kind → String
  | .attnQ => "attn_q"
  | .attnK => "attn_k"
  | .attnV => "attn_v"
  | .attnOutput => "attn_output"
  | .ffnGate => "ffn_gate"
  | .ffnUp => "ffn_up"
  | .ffnDown => "ffn_down"

/-- What follows the layer number and its dot in a block tensor's name. -/
def Kind.suffix (k : Kind) : List Char := k.name.toList ++ ".weight".toList

/-- `f"blk.{l}.{ttype}.weight"`. -/
def blockName (l : Nat) (k : Kind) : List Char := numbered "blk." l k.suffix

theorem Kind.suffix_injective {k k' : Kind} (h : k.suffix = k'.suffix) : k = k' := by
  revert h
  cases k <;> cases k' <;> decide

theorem blockName_injective (h : blockName l k = blockName l' k') : l = l' ∧ k = k' := by
  obtain ⟨hl, hs⟩ := numbered_inj h
  exact ⟨hl, Kind.suffix_injective hs⟩

theorem contains_blockName (h : skips needle "blk." = true) (l : Nat) (k : Kind) :
    contains needle (blockName l k) = contains needle k.suffix :=
  contains_numbered h l k.suffix

section Regex
variable {ps cs : List Char} {p : Char}

theorem regexChar_eq_of_ne_dot (hp : p ≠ '.') (c : Char) : regexChar p c = (p == c) := by
  simp only [regexChar, beq_false_of_ne hp, Bool.false_and, Bool.false_or]

theorem ne_dot_of_isDigit {c : Char} (h : c.isDigit = true) : c ≠ '.' := by
  rintro rfl
  exact absurd h (by decide)

/-- The dot after a shorter number may take the next digit, but the letter after it may not. -/
theorem matchPrefix_digits {ds ds' : List Char} (h : ∀ c ∈ ds, c.isDigit = true)
    (h' : ∀ c ∈ ds', c.isDigit = true) (hp : p.isDigit = false) (hdot : p ≠ '.')
    (hm : matchPrefix regexChar (ds ++ '.' :: p :: ps) (ds' ++ '.' :: cs) = true) :
    ds = ds' ∧ matchPrefix regexChar (p :: ps) cs = true := by
  induction ds generalizing ds' with
  | nil =>
    cases ds' with
    | nil =>
      simp only [List.nil_append, matchPrefix, Bool.and_eq_true] at hm
      exact ⟨rfl, hm.2⟩
    | cons d ds' =>
      exfalso
      simp only [List.nil_append, List.cons_append, matchPrefix, Bool.and_eq_true] at hm
      have hnext := hm.2
      cases ds' with
      | nil =>
        simp only [List.nil_append, matchPrefix, Bool.and_eq_true,
          regexChar_eq_of_ne_dot hdot, beq_iff_eq] at hnext
        exact hdot hnext.1
      | cons d' ds' =>
        simp only [List.cons_append, matchPrefix, Bool.and_eq_true,
          regexChar_eq_of_ne_dot hdot, beq_iff_eq] at hnext
        have hd' := h' d' (.tail _ (.head _))
        rw [← hnext.1, hp] at hd'
        exact absurd hd' (by decide)
  | cons d ds ih =>
    have hd : d ≠ '.' := ne_dot_of_isDigit (h d (.head _))
    cases ds' with
    | nil =>
      exfalso
      simp only [List.nil_append, List.cons_append, matchPrefix, Bool.and_eq_true,
        regexChar_eq_of_ne_dot hd, beq_iff_eq] at hm
      exact hd hm.1
    | cons d' ds' =>
      simp only [List.cons_append, matchPrefix, Bool.and_eq_true,
        regexChar_eq_of_ne_dot hd, beq_iff_eq] at hm
      obtain ⟨hds, hrest⟩ := ih (fun c hc => h c (.tail _ hc)) (fun c hc => h' c (.tail _ hc)) hm.2
      exact ⟨by rw [hm.1, hds], hrest⟩

theorem matchPrefix_suffix (k k' : Kind) :
    matchPrefix regexChar k.suffix k'.suffix = decide (k = k') := by
  cases k <;> cases k' <;> decide

theorem Kind.suffix_eq_cons (k : Kind) :
    ∃ p ps, k.suffix = p :: ps ∧ p.isDigit = false ∧ p ≠ '.' := by
  cases k
  case ffnGate | ffnUp | ffnDown => exact ⟨'f', _, rfl, by decide, by decide⟩
  all_goals exact ⟨'a', _, rfl, by decide, by decide⟩

theorem regexChar_refl (c : Char) : regexChar c c = true := by
  simp only [regexChar, beq_self_eq_true, Bool.or_true]

/-- Read as an unanchored regular expression, a block tensor's name matches no other's. -/
theorem regexSearch_blockName :
    regexSearch (blockName l k) (blockName l' k') = true ↔ l = l' ∧ k = k' := by
  constructor
  · intro h
    have hb : ∀ c ∈ "lk.".toList ++ (decimal l' ++ '.' :: k'.suffix), regexChar 'b' c = false := by
      intro c hc
      rw [regexChar_eq_of_ne_dot (by decide)]
      apply beq_false_of_ne
      rintro rfl
      rcases List.mem_append.1 hc with hc | hc
      · exact absurd hc (by decide)
      · rcases List.mem_append.1 hc with hc | hc
        · exact absurd (isDigit_of_mem_decimal hc) (by decide)
        · rcases List.mem_cons.1 hc with hc | hc
          · exact absurd hc (by decide)
          · revert hc
            cases k' <;> decide
    have hlater : regexSearch (blockName l k)
        ("lk.".toList ++ (decimal l' ++ '.' :: k'.suffix)) = false := by
      have hskip : regexSearch (blockName l k)
          (("lk.".toList ++ (decimal l' ++ '.' :: k'.suffix)) ++ []) = false :=
        search_append_of_head hb []
      rwa [List.append_nil] at hskip
    have hfirst : matchPrefix regexChar (blockName l k) (blockName l' k') = true := by
      have hor : (matchPrefix regexChar (blockName l k) (blockName l' k') ||
          regexSearch (blockName l k) ("lk.".toList ++ (decimal l' ++ '.' :: k'.suffix))) = true :=
        h
      rwa [hlater, Bool.or_false] at hor
    have hnum : matchPrefix regexChar (decimal l ++ '.' :: k.suffix)
        (decimal l' ++ '.' :: k'.suffix) = true := hfirst
    obtain ⟨p, ps, hs, hp, hdot⟩ := k.suffix_eq_cons
    rw [hs] at hnum
    obtain ⟨hd, hk⟩ := matchPrefix_digits (fun _ => isDigit_of_mem_decimal)
      (fun _ => isDigit_of_mem_decimal) hp hdot hnum
    rw [← hs, matchPrefix_suffix] at hk
    exact ⟨decimal_injective hd, of_decide_eq_true hk⟩
  · rintro ⟨rfl, rfl⟩
    apply search_of_matchPrefix
    have hrefl := matchPrefix_refl regexChar_refl (blockName l k) []
    rwa [List.append_nil] at hrefl

end Regex
end ActQuant.Gguf
