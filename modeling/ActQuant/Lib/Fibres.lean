import Mathlib.Data.Finset.Card
import Mathlib.Data.Nat.ModEq

namespace ActQuant.Lib

/-! Pointers from the first `n` numbers, with what points to a place. -/

def fibre (t : Nat → Option Nat) (n i : Nat) : Finset Nat :=
  (Finset.range n).filter fun a => t a = some i

theorem mem_fibre {t : Nat → Option Nat} : a ∈ fibre t n i ↔ a < n ∧ t a = some i := by
  rw [fibre, Finset.mem_filter, Finset.mem_range]

theorem fibre_map (σ : Equiv.Perm Nat) (t : Nat → Option Nat) (n i : Nat) :
    fibre (fun a => (t a).map σ) n i = fibre t n (σ.symm i) := by
  ext a
  rw [mem_fibre, mem_fibre, Option.map_eq_some_iff]
  refine and_congr_right fun _ => ⟨?_, fun h => ⟨_, h, σ.apply_symm_apply i⟩⟩
  rintro ⟨j, hj, rfl⟩
  rw [hj, σ.symm_apply_apply]

theorem fibre_update_self {t : Nat → Option Nat} (ha : a < n) (i : Nat) :
    fibre (Function.update t a (some i)) n i = insert a (fibre t n i) := by
  ext b
  rw [Finset.mem_insert, mem_fibre, mem_fibre]
  by_cases hb : b = a
  · subst hb
    rw [Function.update_self]
    exact iff_of_true ⟨ha, rfl⟩ (.inl rfl)
  · rw [Function.update_of_ne hb, or_iff_right hb]

theorem fibre_update_other {t : Nat → Option Nat} (h : v ≠ some i) :
    fibre (Function.update t a v) n i = (fibre t n i).erase a := by
  ext b
  rw [Finset.mem_erase, mem_fibre, mem_fibre]
  by_cases hb : b = a
  · subst hb
    rw [Function.update_self]
    exact iff_of_false (fun hv => h hv.2) fun hne => hne.1 rfl
  · rw [Function.update_of_ne hb, and_iff_right hb]

/-- A place that one pointer alone points to, or nowhere, leaves a place that nothing points to. -/
theorem exists_fibre_eq_empty {t : Nat → Option Nat} (ha : a < n)
    (h : ∀ i, t a = some i → i < n → fibre t n i ≠ {a}) : ∃ i < n, fibre t n i = ∅ := by
  by_contra hall
  push Not at hall
  have hsurj : Finset.range n ⊆ (Finset.range n).image fun b => (t b).getD n := by
    intro i hi
    obtain ⟨b, hb⟩ := hall i (Finset.mem_range.1 hi)
    obtain ⟨hbn, hbi⟩ := mem_fibre.1 hb
    refine Finset.mem_image.2 ⟨b, Finset.mem_range.2 hbn, ?_⟩
    rw [hbi, Option.getD_some]
  have hcard := Nat.le_antisymm Finset.card_image_le (Finset.card_le_card hsurj)
  have himage := Finset.eq_of_subset_of_card_le hsurj (Nat.le_of_eq hcard)
  have hinj := Finset.card_image_iff.1 hcard
  have hlt : (t a).getD n < n := by
    rw [← Finset.mem_range, himage]
    exact Finset.mem_image_of_mem _ (Finset.mem_range.2 ha)
  obtain ⟨i, hi⟩ : ∃ i, t a = some i := by
    cases hta : t a with
    | none =>
      rw [hta] at hlt
      exact (Nat.lt_irrefl n hlt).elim
    | some i => exact ⟨i, rfl⟩
  rw [hi, Option.getD_some] at hlt
  refine h i hi hlt (Finset.eq_singleton_iff_unique_mem.2 ⟨mem_fibre.2 ⟨ha, hi⟩, fun b hb => ?_⟩)
  obtain ⟨hbn, hbi⟩ := mem_fibre.1 hb
  refine hinj (Finset.mem_range.2 hbn) (Finset.mem_range.2 ha) ?_
  dsimp only
  rw [hi, hbi]

/-! Searches that go around `n` places. -/

def wrap (n i : Nat) : Nat := if n ≤ i then i - n else i

theorem wrap_eq (hi : i ≤ n) : wrap n i = i % n := by
  rw [wrap]
  split
  · case isTrue h =>
    have he : i = n := Nat.le_antisymm hi h
    rw [he, Nat.sub_self, Nat.mod_self]
  · case isFalse h => exact (Nat.mod_eq_of_lt (Nat.lt_of_not_le h)).symm

/-- The first place that is good, from a place on. -/
def cyclicFrom (p : Nat → Bool) (n : Nat) : Nat → Nat → Nat
  | 0, i => i
  | k + 1, i => if p (wrap n i) then wrap n i else cyclicFrom p n k (wrap n i + 1)

/-- The first place that is good, after a place. -/
def cyclicAfter (p : Nat → Bool) (n : Nat) : Nat → Nat → Nat
  | 0, i => i
  | k + 1, i => if p (wrap n (i + 1)) then wrap n (i + 1) else cyclicAfter p n k (wrap n (i + 1))

/-- The place is the first good one at or after a place. -/
def FirstFrom (p : Nat → Bool) (n i d : Nat) : Prop :=
  p ((i + d) % n) = true ∧ ∀ e < d, p ((i + e) % n) = false

theorem mod_step (n i e : Nat) : (i % n + 1 + e) % n = (i + (e + 1)) % n := by
  rw [Nat.add_assoc, Nat.mod_add_mod, Nat.add_comm 1 e]

theorem FirstFrom.succ (hi : p (i % n) = false) (h : FirstFrom p n (i % n + 1) d) :
    FirstFrom p n i (d + 1) := by
  obtain ⟨hp, hfirst⟩ := h
  rw [mod_step] at hp
  refine ⟨hp, fun e he => ?_⟩
  cases e with
  | zero => exact hi
  | succ e =>
    rw [← mod_step]
    exact hfirst e (by omega)

theorem cyclicFrom_spec (hn : 0 < n) (hi : i ≤ n) (hd : d < k) (hp : p ((i + d) % n) = true) :
    ∃ d' ≤ d, cyclicFrom p n k i = (i + d') % n ∧ FirstFrom p n i d' := by
  induction k generalizing i d with
  | zero => exact (Nat.not_lt_zero d hd).elim
  | succ k ih =>
    rw [cyclicFrom, wrap_eq hi]
    split
    · case isTrue h => exact ⟨0, Nat.zero_le d, rfl, h, fun e he => (Nat.not_lt_zero e he).elim⟩
    · case isFalse h =>
      have hfalse : p (i % n) = false := Bool.eq_false_iff.2 h
      cases d with
      | zero => exact (h hp).elim
      | succ d =>
        rw [← mod_step] at hp
        obtain ⟨d', hle, he, hfirst⟩ := ih (Nat.mod_lt i hn) (by omega) hp
        exact ⟨d' + 1, by omega, he.trans (mod_step n i d'), hfirst.succ hfalse⟩

theorem cyclicAfter_spec (hn : 0 < n) (hi : i < n) (hd : d < k)
    (hp : p ((i + 1 + d) % n) = true) :
    ∃ d' ≤ d, cyclicAfter p n k i = (i + 1 + d') % n ∧ FirstFrom p n (i + 1) d' := by
  induction k generalizing i d with
  | zero => exact (Nat.not_lt_zero d hd).elim
  | succ k ih =>
    rw [cyclicAfter, wrap_eq hi]
    split
    · case isTrue h => exact ⟨0, Nat.zero_le d, rfl, h, fun e he => (Nat.not_lt_zero e he).elim⟩
    · case isFalse h =>
      have hfalse : p ((i + 1) % n) = false := Bool.eq_false_iff.2 h
      cases d with
      | zero => exact (h hp).elim
      | succ d =>
        rw [← mod_step] at hp
        obtain ⟨d', hle, he, hfirst⟩ := ih (Nat.mod_lt _ hn) (by omega) hp
        exact ⟨d' + 1, by omega, he.trans (mod_step n (i + 1) d'), hfirst.succ hfalse⟩

/-- Every place is some distance on from a start. -/
theorem exists_distance (hc : c < n) (i : Nat) : ∃ d < n, (i + d) % n = c := by
  have hn : 0 < n := Nat.zero_lt_of_lt hc
  refine ⟨(c + (n - i % n)) % n, Nat.mod_lt _ hn, ?_⟩
  have hi : i % n ≤ n := Nat.le_of_lt (Nat.mod_lt i hn)
  rw [Nat.add_mod_mod, ← Nat.mod_add_mod]
  have he : i % n + (c + (n - i % n)) = c + n := by omega
  rw [he, Nat.add_mod_right, Nat.mod_eq_of_lt hc]

end ActQuant.Lib
