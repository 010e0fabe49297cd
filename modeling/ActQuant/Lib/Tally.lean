import Mathlib.Data.List.Pairwise
import Mathlib.Order.Lattice

namespace ActQuant.Lib

/-- An ordered map from keys to how often each occurs; a key that does not occur has no entry. -/
structure Tally (κ : Type) [LinearOrder κ] where
  entries : List (κ × Nat)
  sorted : (entries.map Prod.fst).Pairwise (· < ·)
  positive : ∀ e ∈ entries, 0 < e.2

namespace Tally
variable {κ : Type} [LinearOrder κ]

/-- The counter of a key in a list of entries. -/
def countIn : List (κ × Nat) → κ → Nat
  | [], _ => 0
  | (k', n) :: rest, k => if k' = k then n else countIn rest k

/-- One occurrence more: the key's counter goes up, or an entry is made at its place. -/
def incIn : List (κ × Nat) → κ → List (κ × Nat)
  | [], k => [(k, 1)]
  | (k', n) :: rest, k =>
    if k < k' then (k, 1) :: (k', n) :: rest
    else if k' = k then (k', n + 1) :: rest
    else (k', n) :: incIn rest k

/-- One occurrence less: an entry whose counter would be zero is erased. -/
def decIn : List (κ × Nat) → κ → List (κ × Nat)
  | [], _ => []
  | (k', n) :: rest, k =>
    if k' = k then if n = 1 then rest else (k', n - 1) :: rest
    else (k', n) :: decIn rest k

theorem mem_incIn {es : List (κ × Nat)} (h : e ∈ incIn es k) :
    (e.1 = k ∧ 0 < e.2) ∨ e ∈ es := by
  induction es with
  | nil =>
    rw [incIn, List.mem_singleton] at h
    rw [h]
    exact .inl ⟨rfl, Nat.one_pos⟩
  | cons x rest ih =>
    obtain ⟨k', n⟩ := x
    simp only [incIn] at h
    split at h
    · rcases List.mem_cons.1 h with rfl | h
      · exact .inl ⟨rfl, Nat.one_pos⟩
      · exact .inr h
    · split at h
      · case isTrue hk =>
        rcases List.mem_cons.1 h with rfl | h
        · exact .inl ⟨hk, Nat.succ_pos n⟩
        · exact .inr (List.mem_cons_of_mem _ h)
      · rcases List.mem_cons.1 h with rfl | h
        · exact .inr List.mem_cons_self
        · exact (ih h).imp_right (List.mem_cons_of_mem _)

theorem mem_decIn {es : List (κ × Nat)} (hpos : ∀ e ∈ es, 0 < e.2) (h : e ∈ decIn es k) :
    0 < e.2 ∧ ∃ x ∈ es, x.1 = e.1 := by
  induction es with
  | nil => cases h
  | cons x rest ih =>
    obtain ⟨k', n⟩ := x
    have hn : 0 < n := hpos _ List.mem_cons_self
    have hrest : ∀ e ∈ rest, 0 < e.2 := fun e he => hpos e (List.mem_cons_of_mem _ he)
    simp only [decIn] at h
    split at h
    · split at h
      · exact ⟨hrest e h, e, List.mem_cons_of_mem _ h, rfl⟩
      · case isFalse hne =>
        rcases List.mem_cons.1 h with rfl | h
        · exact ⟨Nat.sub_pos_of_lt (by omega), _, List.mem_cons_self, rfl⟩
        · exact ⟨hrest e h, e, List.mem_cons_of_mem _ h, rfl⟩
    · rcases List.mem_cons.1 h with rfl | h
      · exact ⟨hn, _, List.mem_cons_self, rfl⟩
      · obtain ⟨he, y, hy, hk⟩ := ih hrest h
        exact ⟨he, y, List.mem_cons_of_mem _ hy, hk⟩

theorem pairwise_keys_cons {x : κ × Nat} {rest : List (κ × Nat)} :
    ((x :: rest).map Prod.fst).Pairwise (· < ·) ↔
      (∀ e ∈ rest, x.1 < e.1) ∧ (rest.map Prod.fst).Pairwise (· < ·) := by
  rw [List.map_cons, List.pairwise_cons, List.forall_mem_map]

theorem incIn_sorted {es : List (κ × Nat)} (h : (es.map Prod.fst).Pairwise (· < ·)) (k : κ) :
    ((incIn es k).map Prod.fst).Pairwise (· < ·) := by
  induction es with
  | nil => exact List.pairwise_singleton _ _
  | cons x rest ih =>
    obtain ⟨k', n⟩ := x
    obtain ⟨hhead, htail⟩ := pairwise_keys_cons.1 h
    simp only [incIn]
    split
    · case isTrue hlt =>
      refine pairwise_keys_cons.2 ⟨?_, h⟩
      intro e he
      rcases List.mem_cons.1 he with rfl | he
      · exact hlt
      · exact hlt.trans (hhead e he)
    · case isFalse hge =>
      split
      · exact pairwise_keys_cons.2 ⟨hhead, htail⟩
      · case isFalse hne =>
        refine pairwise_keys_cons.2 ⟨?_, ih htail⟩
        intro e he
        rcases mem_incIn he with ⟨hk, _⟩ | he
        · rw [hk]
          exact lt_of_le_of_ne (not_lt.1 hge) hne
        · exact hhead e he

theorem decIn_sorted {es : List (κ × Nat)} (h : (es.map Prod.fst).Pairwise (· < ·))
    (hpos : ∀ e ∈ es, 0 < e.2) (k : κ) : ((decIn es k).map Prod.fst).Pairwise (· < ·) := by
  induction es with
  | nil => exact List.Pairwise.nil
  | cons x rest ih =>
    obtain ⟨k', n⟩ := x
    obtain ⟨hhead, htail⟩ := pairwise_keys_cons.1 h
    have hrest : ∀ e ∈ rest, 0 < e.2 := fun e he => hpos e (List.mem_cons_of_mem _ he)
    simp only [decIn]
    split
    · split
      · exact htail
      · exact pairwise_keys_cons.2 ⟨hhead, htail⟩
    · refine pairwise_keys_cons.2 ⟨?_, ih htail hrest⟩
      intro e he
      obtain ⟨_, y, hy, hk⟩ := mem_decIn hrest he
      rw [← hk]
      exact hhead y hy

def empty : Tally κ := ⟨[], List.Pairwise.nil, fun _ h => (List.not_mem_nil h).elim⟩

def count (t : Tally κ) (k : κ) : Nat := countIn t.entries k

def inc (t : Tally κ) (k : κ) : Tally κ where
  entries := incIn t.entries k
  sorted := incIn_sorted t.sorted k
  positive e he := by
    rcases mem_incIn he with ⟨_, hpos⟩ | he
    · exact hpos
    · exact t.positive e he

def dec (t : Tally κ) (k : κ) : Tally κ where
  entries := decIn t.entries k
  sorted := decIn_sorted t.sorted t.positive k
  positive _ he := (mem_decIn t.positive he).1

/-- The least key that occurs. -/
def least? (t : Tally κ) : Option κ := t.entries.head?.map Prod.fst

/-- The greatest key that occurs. -/
def greatest? (t : Tally κ) : Option κ := t.entries.getLast?.map Prod.fst

theorem countIn_eq_zero {es : List (κ × Nat)} (h : ∀ e ∈ es, e.1 ≠ k) : countIn es k = 0 := by
  induction es with
  | nil => rfl
  | cons x rest ih =>
    rw [countIn, if_neg (h x List.mem_cons_self)]
    exact ih fun e he => h e (List.mem_cons_of_mem _ he)

theorem countIn_incIn {es : List (κ × Nat)} (h : (es.map Prod.fst).Pairwise (· < ·)) (k k' : κ) :
    countIn (incIn es k) k' = countIn es k' + if k' = k then 1 else 0 := by
  induction es with
  | nil =>
    simp only [incIn, countIn, Nat.zero_add]
    exact if_congr eq_comm rfl rfl
  | cons x rest ih =>
    obtain ⟨k₀, n⟩ := x
    obtain ⟨hhead, htail⟩ := pairwise_keys_cons.1 h
    have ih := ih htail
    simp only [incIn]
    split
    · case isTrue hlt =>
      have habsent : countIn ((k₀, n) :: rest) k = 0 := by
        apply countIn_eq_zero
        intro e he
        rcases List.mem_cons.1 he with rfl | he
        · exact hlt.ne'
        · exact (hlt.trans (hhead e he)).ne'
      rw [countIn]
      by_cases hk : k = k'
      · rw [if_pos hk, if_pos hk.symm, ← hk, habsent]
      · rw [if_neg hk, if_neg (Ne.symm hk), Nat.add_zero]
    · split
      · case isTrue heq =>
        subst heq
        simp only [countIn]
        by_cases hk : k₀ = k'
        · rw [if_pos hk, if_pos hk, if_pos hk.symm]
        · rw [if_neg hk, if_neg hk, if_neg (Ne.symm hk), Nat.add_zero]
      · case isFalse hne =>
        simp only [countIn, ih]
        by_cases hk : k₀ = k'
        · rw [if_pos hk, if_pos hk, if_neg (by rw [← hk]; exact hne), Nat.add_zero]
        · rw [if_neg hk, if_neg hk]

theorem countIn_decIn {es : List (κ × Nat)} (h : (es.map Prod.fst).Pairwise (· < ·)) (k k' : κ) :
    countIn (decIn es k) k' = countIn es k' - if k' = k then 1 else 0 := by
  induction es with
  | nil => exact (Nat.zero_sub _).symm
  | cons x rest ih =>
    obtain ⟨k₀, n⟩ := x
    obtain ⟨hhead, htail⟩ := pairwise_keys_cons.1 h
    have ih := ih htail
    have habsent : countIn rest k₀ = 0 := countIn_eq_zero fun e he => (hhead e he).ne'
    simp only [decIn]
    split
    · case isTrue heq =>
      subst heq
      split
      · case isTrue hn =>
        simp only [countIn]
        by_cases hk : k₀ = k'
        · rw [if_pos hk, if_pos hk.symm, ← hk, habsent, hn]
        · rw [if_neg hk, if_neg (Ne.symm hk), Nat.sub_zero]
      · simp only [countIn]
        by_cases hk : k₀ = k'
        · rw [if_pos hk, if_pos hk, if_pos hk.symm]
        · rw [if_neg hk, if_neg hk, if_neg (Ne.symm hk), Nat.sub_zero]
    · case isFalse hne =>
      simp only [countIn, ih]
      by_cases hk : k₀ = k'
      · rw [if_pos hk, if_pos hk, if_neg (by rw [← hk]; exact hne), Nat.sub_zero]
      · rw [if_neg hk, if_neg hk]

theorem count_inc (t : Tally κ) (k k' : κ) :
    (t.inc k).count k' = t.count k' + if k' = k then 1 else 0 :=
  countIn_incIn t.sorted k k'

theorem count_dec (t : Tally κ) (k k' : κ) :
    (t.dec k).count k' = t.count k' - if k' = k then 1 else 0 :=
  countIn_decIn t.sorted k k'

theorem countIn_of_mem {es : List (κ × Nat)} (h : (es.map Prod.fst).Pairwise (· < ·))
    (he : e ∈ es) : countIn es e.1 = e.2 := by
  induction es with
  | nil => cases he
  | cons x rest ih =>
    obtain ⟨hhead, htail⟩ := pairwise_keys_cons.1 h
    rw [countIn]
    rcases List.mem_cons.1 he with rfl | he
    · rw [if_pos rfl]
    · rw [if_neg (hhead e he).ne, ih htail he]

theorem count_of_mem (t : Tally κ) (he : e ∈ t.entries) : t.count e.1 = e.2 :=
  countIn_of_mem t.sorted he

theorem exists_of_count_pos {t : Tally κ} (h : 0 < t.count k) : ∃ e ∈ t.entries, e.1 = k := by
  by_contra hno
  push Not at hno
  rw [count, countIn_eq_zero hno] at h
  exact Nat.lt_irrefl 0 h

theorem count_pos_of_mem (t : Tally κ) (he : e ∈ t.entries) : 0 < t.count e.1 := by
  rw [t.count_of_mem he]
  exact t.positive e he

/-- The first entry is the least key that occurs. -/
theorem least?_eq_some {t : Tally κ} :
    t.least? = some k ↔ 0 < t.count k ∧ ∀ k', 0 < t.count k' → k ≤ k' := by
  constructor
  · intro h
    rw [least?, Option.map_eq_some_iff] at h
    obtain ⟨e, he, rfl⟩ := h
    refine ⟨t.count_pos_of_mem (List.mem_of_mem_head? he), ?_⟩
    intro k' hk'
    obtain ⟨e', he', rfl⟩ := exists_of_count_pos hk'
    cases hes : t.entries with
    | nil =>
      rw [hes] at he
      cases he
    | cons x rest =>
      rw [hes] at he he'
      cases he
      have hs := t.sorted
      rw [hes] at hs
      rcases List.mem_cons.1 he' with rfl | he'
      · exact le_rfl
      · exact ((pairwise_keys_cons.1 hs).1 e' he').le
  · rintro ⟨hk, hle⟩
    obtain ⟨e, he, rfl⟩ := exists_of_count_pos hk
    cases hes : t.entries with
    | nil =>
      rw [hes] at he
      cases he
    | cons x rest =>
      have hx : x ∈ t.entries := by
        rw [hes]
        exact List.mem_cons_self
      have hs := t.sorted
      rw [hes] at hs he
      rw [least?, hes]
      have hle := hle x.1 (t.count_pos_of_mem hx)
      rcases List.mem_cons.1 he with rfl | he
      · rfl
      · exact absurd ((pairwise_keys_cons.1 hs).1 e he) (not_lt.2 hle)

theorem greatest?_key_le {es : List (κ × Nat)} (h : (es.map Prod.fst).Pairwise (· < ·))
    (hlast : es.getLast? = some x) (he : e ∈ es) : e.1 ≤ x.1 := by
  obtain ⟨front, rfl⟩ := List.getLast?_eq_some_iff.1 hlast
  rw [List.map_append, List.pairwise_append] at h
  rcases List.mem_append.1 he with he | he
  · exact (h.2.2 e.1 (List.mem_map_of_mem he) x.1 (List.mem_singleton.2 rfl)).le
  · rw [List.mem_singleton.1 he]

/-- The last entry is the greatest key that occurs. -/
theorem greatest?_eq_some {t : Tally κ} :
    t.greatest? = some k ↔ 0 < t.count k ∧ ∀ k', 0 < t.count k' → k' ≤ k := by
  constructor
  · intro h
    rw [greatest?, Option.map_eq_some_iff] at h
    obtain ⟨x, hx, rfl⟩ := h
    refine ⟨t.count_pos_of_mem (List.mem_of_getLast? hx), ?_⟩
    intro k' hk'
    obtain ⟨e, he, rfl⟩ := exists_of_count_pos hk'
    exact greatest?_key_le t.sorted hx he
  · rintro ⟨hk, hle⟩
    obtain ⟨e, he, rfl⟩ := exists_of_count_pos hk
    cases hx : t.entries.getLast? with
    | none =>
      rw [List.getLast?_eq_none_iff.1 hx] at he
      cases he
    | some x =>
      rw [greatest?, hx, Option.map_some, Option.some_inj]
      exact le_antisymm (hle x.1 (t.count_pos_of_mem (List.mem_of_getLast? hx)))
        (greatest?_key_le t.sorted hx he)

theorem least?_eq_none {t : Tally κ} : t.least? = none ↔ ∀ k, t.count k = 0 := by
  rw [least?, Option.map_eq_none_iff, List.head?_eq_none_iff]
  constructor
  · intro h k
    rw [count, h]
    rfl
  · intro h
    apply List.eq_nil_iff_forall_not_mem.2
    intro e he
    exact Nat.ne_of_gt (t.count_pos_of_mem he) (h e.1)

theorem greatest?_eq_none {t : Tally κ} : t.greatest? = none ↔ ∀ k, t.count k = 0 := by
  rw [← least?_eq_none, greatest?, least?, Option.map_eq_none_iff, Option.map_eq_none_iff,
    List.getLast?_eq_none_iff, List.head?_eq_none_iff]

theorem entries_eq_of_count {es fs : List (κ × Nat)} (hes : (es.map Prod.fst).Pairwise (· < ·))
    (hfs : (fs.map Prod.fst).Pairwise (· < ·)) (hep : ∀ e ∈ es, 0 < e.2) (hfp : ∀ e ∈ fs, 0 < e.2)
    (h : ∀ k, countIn es k = countIn fs k) : es = fs := by
  have hmem {as bs : List (κ × Nat)} (has : (as.map Prod.fst).Pairwise (· < ·))
      (hbs : (bs.map Prod.fst).Pairwise (· < ·)) (hap : ∀ e ∈ as, 0 < e.2)
      (h : ∀ k, countIn as k = countIn bs k) (e : κ × Nat) (he : e ∈ as) : e ∈ bs := by
    have hcount := (h e.1).symm.trans (countIn_of_mem has he)
    have hex : ∃ x ∈ bs, x.1 = e.1 := by
      by_contra hno
      push Not at hno
      rw [countIn_eq_zero hno] at hcount
      exact Nat.ne_of_gt (hap e he) hcount.symm
    obtain ⟨x, hx, hk⟩ := hex
    rw [← hk, countIn_of_mem hbs hx] at hcount
    rwa [show e = x from Prod.ext hk.symm hcount.symm]
  induction es generalizing fs with
  | nil =>
    symm
    apply List.eq_nil_iff_forall_not_mem.2
    intro e he
    exact List.not_mem_nil (hmem hfs hes hfp (fun k => (h k).symm) e he)
  | cons x rest ih =>
    cases fs with
    | nil => exact (List.not_mem_nil (hmem hes hfs hep h x List.mem_cons_self)).elim
    | cons y rest' =>
      obtain ⟨hx, hrest⟩ := pairwise_keys_cons.1 hes
      obtain ⟨hy, hrest'⟩ := pairwise_keys_cons.1 hfs
      have hxy : x = y := by
        rcases List.mem_cons.1 (hmem hes hfs hep h x List.mem_cons_self) with rfl | hx'
        · rfl
        · rcases List.mem_cons.1 (hmem hfs hes hfp (fun k => (h k).symm) y List.mem_cons_self)
            with rfl | hy'
          · rfl
          · exact absurd (hx y hy') (hy x hx').asymm
      subst hxy
      congr 1
      apply ih hrest hrest' (fun e he => hep e (List.mem_cons_of_mem _ he))
        (fun e he => hfp e (List.mem_cons_of_mem _ he))
      intro k
      have hk := h k
      simp only [countIn] at hk
      by_cases hkx : x.1 = k
      · rw [countIn_eq_zero fun e he => (hkx ▸ hx e he).ne',
          countIn_eq_zero fun e he => (hkx ▸ hy e he).ne']
      · rwa [if_neg hkx, if_neg hkx] at hk

/-- A tally is its counters. -/
theorem ext_count {t u : Tally κ} (h : ∀ k, t.count k = u.count k) : t = u := by
  obtain ⟨es, hes, hep⟩ := t
  obtain ⟨fs, hfs, hfp⟩ := u
  obtain rfl := entries_eq_of_count hes hfs hep hfp h
  rfl

end Tally
end ActQuant.Lib
