import Mathlib.Algebra.BigOperators.Group.List.Basic
import Mathlib.Computability.Language
import Mathlib.Tactic.Ring

namespace ActQuant.Lib
open scoped Computability

/-! Words of lists whose items have a separator between neighbours. -/

/-- A word of each language, with a separator between neighbours. -/
def joined (sep : Language α) : List (Language α) → Language α
  | [] => 1
  | l :: ls => l * (ls.map (sep * ·)).prod

theorem joined_singleton (sep l : Language α) : joined sep [l] = l := mul_one l

theorem joined_append (sep : Language α) {ls : List (Language α)} (hne : ls ≠ [])
    (ls' : List (Language α)) :
    joined sep (ls ++ ls') = joined sep ls * (ls'.map (sep * ·)).prod := by
  cases ls with
  | nil => exact absurd rfl hne
  | cons l ls => rw [List.cons_append, joined, joined, List.map_append, List.prod_append, mul_assoc]

theorem sep_mul_joined (sep : Language α) {ls : List (Language α)} (hne : ls ≠ []) :
    sep * joined sep ls = (ls.map (sep * ·)).prod := by
  cases ls with
  | nil => exact absurd rfl hne
  | cons l ls => rw [joined, List.map_cons, List.prod_cons, mul_assoc]

theorem joined_replicate (sep l : Language α) (n : Nat) :
    joined sep (List.replicate (n + 1) l) = l * (sep * l) ^ n := by
  rw [List.replicate_succ, joined, List.map_replicate, List.prod_replicate]

theorem joined_cons_cons (sep l l' : Language α) (ls : List (Language α)) :
    joined sep (l :: l' :: ls) = l * (sep * joined sep (l' :: ls)) := by
  rw [joined, joined, List.map_cons, List.prod_cons, mul_assoc]

theorem exists_mem_joined {sep : Language α} (hsep : ∃ u, u ∈ sep) {ls : List (Language α)}
    (h : ∀ l ∈ ls, ∃ u, u ∈ l) : ∃ w, w ∈ joined sep ls := by
  induction ls with
  | nil => exact ⟨[], rfl⟩
  | cons l ls ih =>
    obtain ⟨⟨u, hu⟩, hls⟩ := List.forall_mem_cons.1 h
    obtain ⟨v, hv⟩ := ih hls
    obtain ⟨c, hc⟩ := hsep
    cases ls with
    | nil => exact ⟨u, (joined_singleton sep l).symm ▸ hu⟩
    | cons l' ls =>
      rw [joined_cons_cons]
      exact ⟨_, Language.append_mem_mul hu (Language.append_mem_mul hc hv)⟩

theorem not_mem_of_mem_joined {sep : Language α} {x : α} (hsep : ∀ u ∈ sep, x ∉ u)
    {ls : List (Language α)} (h : ∀ l ∈ ls, ∀ u ∈ l, x ∉ u) (hw : w ∈ joined sep ls) : x ∉ w := by
  induction ls generalizing w with
  | nil =>
    cases hw
    exact List.not_mem_nil
  | cons l ls ih =>
    obtain ⟨hl, hls⟩ := List.forall_mem_cons.1 h
    cases ls with
    | nil => exact hl w (joined_singleton sep l ▸ hw)
    | cons l' ls =>
      rw [joined_cons_cons] at hw
      obtain ⟨u, hu, _, ⟨c, hc, v, hv, rfl⟩, rfl⟩ := hw
      intro hx
      rcases List.mem_append.1 hx with hx | hx
      · exact hl u hu hx
      · rcases List.mem_append.1 hx with hx | hx
        · exact hsep c hc hx
        · exact ih hls hv hx

theorem mem_of_mem_joined {sep : Language α} {x : α} {ls : List (Language α)}
    (hmem : l ∈ ls) (hx : ∀ u ∈ l, x ∈ u) (hw : w ∈ joined sep ls) : x ∈ w := by
  induction ls generalizing w with
  | nil => exact absurd hmem List.not_mem_nil
  | cons l₁ ls ih =>
    cases ls with
    | nil =>
      rw [joined_singleton] at hw
      exact hx w (List.mem_singleton.1 hmem ▸ hw)
    | cons l' ls =>
      rw [joined_cons_cons] at hw
      obtain ⟨u, hu, _, ⟨c, hc, v, hv, rfl⟩, rfl⟩ := hw
      rcases List.mem_cons.1 hmem with rfl | hmem
      · exact List.mem_append_left _ (hx u hu)
      · exact List.mem_append_right _ (List.mem_append_right _ (ih hmem hv))

/-- Items of one length `m`, and separators of one length `k`. -/
theorem length_of_mem_joined {sep : Language α} (hsep : ∀ u ∈ sep, u.length = k)
    {ls : List (Language α)} (h : ∀ l ∈ ls, ∀ u ∈ l, u.length = m) (hw : w ∈ joined sep ls) :
    w.length = ls.length * m + (ls.length - 1) * k := by
  induction ls generalizing w with
  | nil =>
    cases hw
    simp
  | cons l ls ih =>
    obtain ⟨hl, hls⟩ := List.forall_mem_cons.1 h
    cases ls with
    | nil => simp [hl w (joined_singleton sep l ▸ hw)]
    | cons l' ls =>
      rw [joined_cons_cons] at hw
      obtain ⟨u, hu, _, ⟨c, hc, v, hv, rfl⟩, rfl⟩ := hw
      have hlen := ih hls hv
      simp only [List.length_append, List.length_cons, hl u hu, hsep c hc, hlen]
      simp only [Nat.add_sub_cancel]
      ring

section Selects
variable {α β : Type*} (sep : Language α) (L : β → Language α)

/-- Some of the items in their order; those with a mark may be taken more than once. -/
inductive Selects : List (β × Bool) → List β → Prop
  | nil : Selects [] []
  | cons (n : Nat) (hn : b = false → n ≤ 1) (h : Selects ks xs) :
      Selects ((x, b) :: ks) (List.replicate n x ++ xs)

/-- What may follow a first item. -/
def rests : List (β × Bool) → Language α
  | [] => 1
  | (x, b) :: ks => (if b then (sep * L x)∗ else 1 + sep * L x) * rests ks

/-- What may start with any of the items. -/
def firsts : List (β × Bool) → Language α
  | [] => 0
  | (x, b) :: ks => L x * ((if b then (sep * L x)∗ else 1) * rests sep L ks) + firsts ks

theorem Selects.skip {k : β × Bool} (h : Selects ks xs) : Selects (k :: ks) xs :=
  .cons (x := k.1) 0 (fun _ => Nat.zero_le 1) h

theorem mem_kstar_iff_pow {l : Language α} {w : List α} : w ∈ l∗ ↔ ∃ n, w ∈ l ^ n := by
  rw [Language.kstar_eq_iSup_pow, Language.mem_iSup]

variable {sep L}

theorem mem_once {l : Language α} {b : Bool} {w : List α} :
    w ∈ (if b then l∗ else 1 + l) ↔ ∃ n, (b = false → n ≤ 1) ∧ w ∈ l ^ n := by
  cases b with
  | true => rw [if_pos rfl, mem_kstar_iff_pow]; simp
  | false =>
    rw [if_neg Bool.false_ne_true, Language.mem_add]
    constructor
    · rintro (h | h)
      · exact ⟨0, fun _ => Nat.zero_le 1, (pow_zero l).symm ▸ h⟩
      · exact ⟨1, fun _ => Nat.le_refl 1, (pow_one l).symm ▸ h⟩
    · rintro ⟨n, hn, h⟩
      rcases Nat.le_one_iff_eq_zero_or_eq_one.1 (hn rfl) with rfl | rfl
      · exact .inl (pow_zero l ▸ h)
      · exact .inr (pow_one l ▸ h)

theorem mem_again {l : Language α} {b : Bool} {w : List α} :
    w ∈ (if b then l∗ else 1) ↔ ∃ n, (b = false → n = 0) ∧ w ∈ l ^ n := by
  cases b with
  | true => rw [if_pos rfl, mem_kstar_iff_pow]; simp
  | false =>
    rw [if_neg Bool.false_ne_true]
    constructor
    · exact fun h => ⟨0, fun _ => rfl, (pow_zero l).symm ▸ h⟩
    · rintro ⟨n, hn, h⟩
      obtain rfl := hn rfl
      exact pow_zero l ▸ h

theorem prod_replicate_append (n : Nat) (x : β) (xs : List β) :
    ((List.replicate n x ++ xs).map fun x => sep * L x).prod =
      (sep * L x) ^ n * (xs.map fun x => sep * L x).prod := by
  rw [List.map_append, List.prod_append, List.map_replicate, List.prod_replicate]

theorem mem_rests {ks : List (β × Bool)} {w : List α} :
    w ∈ rests sep L ks ↔ ∃ xs, Selects ks xs ∧ w ∈ (xs.map fun x => sep * L x).prod := by
  induction ks generalizing w with
  | nil =>
    constructor
    · exact fun h => ⟨[], .nil, h⟩
    · rintro ⟨_, ⟨⟩, h⟩
      exact h
  | cons k ks ih =>
    obtain ⟨x, b⟩ := k
    rw [rests, Language.mem_mul]
    constructor
    · rintro ⟨u, hu, v, hv, rfl⟩
      obtain ⟨n, hn, hu⟩ := mem_once.1 hu
      obtain ⟨xs, hxs, hv⟩ := ih.1 hv
      exact ⟨_, .cons n hn hxs, prod_replicate_append n x xs ▸ Language.append_mem_mul hu hv⟩
    · rintro ⟨_, hxs, hw⟩
      cases hxs with
      | cons n hn hxs =>
        rw [prod_replicate_append, Language.mem_mul] at hw
        obtain ⟨u, hu, v, hv, rfl⟩ := hw
        exact ⟨u, mem_once.2 ⟨n, hn, hu⟩, v, ih.2 ⟨_, hxs, hv⟩, rfl⟩

theorem mem_firsts {ks : List (β × Bool)} {w : List α} :
    w ∈ firsts sep L ks ↔ ∃ xs, Selects ks xs ∧ xs ≠ [] ∧ w ∈ joined sep (xs.map L) := by
  induction ks generalizing w with
  | nil =>
    refine iff_of_false id ?_
    rintro ⟨_, ⟨⟩, hne, _⟩
    exact hne rfl
  | cons k ks ih =>
    obtain ⟨x, b⟩ := k
    have hjoined (n : Nat) (xs : List β) :
        joined sep ((List.replicate (n + 1) x ++ xs).map L) =
          L x * ((sep * L x) ^ n * (xs.map fun x => sep * L x).prod) := by
      rw [List.replicate_succ, List.cons_append, List.map_cons, joined, List.map_map]
      exact congrArg _ (prod_replicate_append n x xs)
    rw [firsts, Language.mem_add, ih]
    constructor
    · rintro (h | ⟨xs, hxs, hne, hw⟩)
      · obtain ⟨u, hu, _, ⟨v₁, hv₁, v₂, hv₂, rfl⟩, rfl⟩ := h
        obtain ⟨n, hn, hv₁⟩ := mem_again.1 hv₁
        obtain ⟨xs, hxs, hv₂⟩ := mem_rests.1 hv₂
        refine ⟨_, .cons (n + 1) (fun hb => by rw [hn hb]) hxs, by simp, ?_⟩
        rw [hjoined]
        exact Language.append_mem_mul hu (Language.append_mem_mul hv₁ hv₂)
      · exact ⟨xs, hxs.skip, hne, hw⟩
    · rintro ⟨_, hxs, hne, hw⟩
      cases hxs with
      | @cons _ _ xs _ n hn hxs =>
        cases n with
        | zero => exact .inr ⟨xs, hxs, hne, hw⟩
        | succ n =>
          rw [hjoined] at hw
          obtain ⟨u, hu, _, ⟨v₁, hv₁, v₂, hv₂, rfl⟩, rfl⟩ := hw
          refine .inl ⟨u, hu, _, ⟨v₁, mem_again.2 ⟨n, fun hb => ?_, hv₁⟩, v₂,
            mem_rests.2 ⟨xs, hxs, hv₂⟩, rfl⟩, rfl⟩
          have hle := hn hb
          omega

theorem selects_nil : ∀ ks : List (β × Bool), Selects ks []
  | [] => .nil
  | _ :: ks => (selects_nil ks).skip

/-- What follows the items that must be there: nothing, or a separator and some others. -/
theorem one_add_sep_mul_firsts (ks : List (β × Bool)) :
    1 + sep * firsts sep L ks = rests sep L ks := by
  ext w
  rw [mem_rests, Language.mem_add, Language.mem_mul]
  constructor
  · rintro (h | ⟨u, hu, v, hv, rfl⟩)
    · exact ⟨[], selects_nil ks, h⟩
    · obtain ⟨xs, hxs, hne, hv⟩ := mem_firsts.1 hv
      refine ⟨xs, hxs, ?_⟩
      have hmul := Language.append_mem_mul hu hv
      rwa [sep_mul_joined sep (List.map_eq_nil_iff.not.2 hne), List.map_map] at hmul
  · rintro ⟨xs, hxs, hw⟩
    cases xs with
    | nil => exact .inl hw
    | cons x xs =>
      have hmap : ((x :: xs).map fun x => sep * L x) = ((x :: xs).map L).map (sep * ·) :=
        (List.map_map ..).symm
      have hne : (x :: xs).map L ≠ [] := List.cons_ne_nil _ _
      rw [hmap, ← sep_mul_joined sep hne] at hw
      obtain ⟨u, hu, v, hv, rfl⟩ := hw
      exact .inr ⟨u, hu, v, mem_firsts.2 ⟨_, hxs, List.cons_ne_nil _ _, hv⟩, rfl⟩

variable (sep L) in
/-- Items that must be there, and then some of others. -/
def chosen (req : List β) (ks : List (β × Bool)) : Language α :=
  {w | ∃ xs, Selects ks xs ∧ w ∈ joined sep ((req ++ xs).map L)}

theorem chosen_nil (ks : List (β × Bool)) : chosen sep L [] ks = 1 + firsts sep L ks := by
  ext w
  rw [Language.mem_add, mem_firsts]
  constructor
  · rintro ⟨xs, hxs, hw⟩
    cases xs with
    | nil => exact .inl hw
    | cons x xs => exact .inr ⟨_, hxs, List.cons_ne_nil _ _, hw⟩
  · rintro (hw | ⟨xs, hxs, _, hw⟩)
    · exact ⟨[], selects_nil ks, hw⟩
    · exact ⟨xs, hxs, hw⟩

theorem chosen_of_ne {req : List β} (hne : req ≠ []) (ks : List (β × Bool)) :
    chosen sep L req ks = joined sep (req.map L) * (1 + sep * firsts sep L ks) := by
  have hjoined (xs : List β) : joined sep ((req ++ xs).map L) =
      joined sep (req.map L) * (xs.map fun x => sep * L x).prod := by
    rw [List.map_append, joined_append sep (List.map_eq_nil_iff.not.2 hne), List.map_map]
    rfl
  ext w
  rw [one_add_sep_mul_firsts, Language.mem_mul]
  constructor
  · rintro ⟨xs, hxs, hw⟩
    rw [hjoined] at hw
    obtain ⟨u, hu, v, hv, rfl⟩ := hw
    exact ⟨u, hu, v, mem_rests.2 ⟨xs, hxs, hv⟩, rfl⟩
  · rintro ⟨u, hu, v, hv, rfl⟩
    obtain ⟨xs, hxs, hv⟩ := mem_rests.1 hv
    refine ⟨xs, hxs, ?_⟩
    rw [hjoined]
    exact Language.append_mem_mul hu hv

/-- An item with a mark may be taken as often as one likes. -/
theorem selects_replicate {ks : List (β × Bool)} {z : β} (h : (z, true) ∈ ks) (n : Nat) :
    Selects ks (List.replicate n z) := by
  induction ks with
  | nil => exact absurd h List.not_mem_nil
  | cons k ks ih =>
    rcases List.mem_cons.1 h with rfl | h
    · exact List.append_nil (List.replicate n z) ▸ .cons n (fun hb => nomatch hb) (selects_nil ks)
    · exact (ih h).skip

theorem Selects.mem {ks : List (β × Bool)} {xs : List β} (h : Selects ks xs) :
    ∀ x ∈ xs, x ∈ ks.map Prod.fst := by
  induction h with
  | nil => exact fun x hx => absurd hx List.not_mem_nil
  | cons n hn h ih =>
    intro x hx
    rcases List.mem_append.1 hx with hx | hx
    · exact List.eq_of_mem_replicate hx ▸ List.mem_cons_self
    · exact List.mem_cons_of_mem _ (ih x hx)

/-- Without marks, the choices are the sublists. -/
theorem selects_unmarked {xs ys : List β} :
    Selects (xs.map fun x => (x, false)) ys ↔ ys.Sublist xs := by
  induction xs generalizing ys with
  | nil =>
    rw [List.sublist_nil]
    constructor
    · rintro ⟨⟩
      rfl
    · rintro rfl
      exact .nil
  | cons x xs ih =>
    constructor
    · intro h
      cases h with
      | cons n hn h =>
        rcases Nat.le_one_iff_eq_zero_or_eq_one.1 (hn rfl) with rfl | rfl
        · exact (ih.1 h).cons x
        · exact (ih.1 h).cons_cons x
    · intro h
      cases h with
      | cons _ h => exact (ih.2 h).skip
      | cons_cons _ h => exact .cons 1 (fun _ => Nat.le_refl 1) (ih.2 h)

/-- A last item with a mark comes any number of times. -/
theorem selects_concat {ks : List (β × Bool)} {z : β} {ys : List β} :
    Selects (ks ++ [(z, true)]) ys ↔ ∃ xs n, Selects ks xs ∧ ys = xs ++ List.replicate n z := by
  induction ks generalizing ys with
  | nil =>
    constructor
    · intro h
      cases h with
      | cons n hn h =>
        cases h
        exact ⟨[], n, .nil, List.append_nil _⟩
    · rintro ⟨_, n, ⟨⟩, rfl⟩
      exact List.append_nil (List.replicate n z) ▸ .cons n (fun h => nomatch h) .nil
  | cons k ks ih =>
    constructor
    · intro h
      cases h with
      | cons m hm h =>
        obtain ⟨xs, n, hxs, rfl⟩ := ih.1 h
        exact ⟨_, n, .cons m hm hxs, (List.append_assoc ..).symm⟩
    · rintro ⟨_, n, h, rfl⟩
      cases h with
      | cons m hm h =>
        rw [List.append_assoc]
        exact .cons m hm (ih.2 ⟨_, n, h, rfl⟩)

end Selects

end ActQuant.Lib
