import Mathlib.Algebra.BigOperators.Group.List.Basic
import Mathlib.Data.List.Nodup
import Mathlib.Order.MinMax
import Mathlib.Tactic.Abel

namespace ActQuant.Lib

theorem sum_map_change [AddCommMonoid M] {xs : List ι} {f g : ι → M} (hnd : xs.Nodup)
    (ha : a ∈ xs) (h : ∀ x ∈ xs, x ≠ a → g x = f x) :
    (xs.map g).sum + f a = (xs.map f).sum + g a := by
  induction xs with
  | nil => cases ha
  | cons x xs ih =>
    obtain ⟨hx, hnd⟩ := List.nodup_cons.1 hnd
    simp only [List.map_cons, List.sum_cons]
    by_cases he : x = a
    · subst he
      have hrest : xs.map g = xs.map f := by
        apply List.map_congr_left
        intro y hy
        exact h y (.tail _ hy) (fun he => hx (he ▸ hy))
      rw [hrest]
      abel
    · have ha' : a ∈ xs := (List.mem_cons.1 ha).resolve_left (fun h => he h.symm)
      have hrest := ih hnd ha' (fun y hy => h y (.tail _ hy))
      rw [h x (.head _) he, add_assoc, hrest, add_assoc]

/-- Two sums over lists with the same distinct keys agree when the terms at one key do. -/
theorem sum_map_of_perm_keys [AddCommMonoid M] [DecidableEq κ] {xs : List α} {ys : List β}
    {key : α → κ} {key' : β → κ} {f : α → M} {g : β → M} (hkeys : (xs.map key).Perm (ys.map key'))
    (hnd : (ys.map key').Nodup) (hfg : ∀ x ∈ xs, ∀ y ∈ ys, key x = key' y → f x = g y) :
    (xs.map f).sum = (ys.map g).sum := by
  -- Both sums are those of the value found at each key.
  let atKey (c : κ) : M := ((ys.find? (key' · = c)).map g).getD 0
  have hat {y : β} (hy : y ∈ ys) : atKey (key' y) = g y := by
    have hfound : (ys.find? (key' · = key' y)).isSome = true :=
      List.find?_isSome.2 ⟨y, hy, decide_eq_true rfl⟩
    obtain ⟨y', hy'⟩ := Option.isSome_iff_exists.1 hfound
    have hkey : key' y' = key' y := by
      have hpred := List.find?_some hy'
      exact of_decide_eq_true hpred
    have heq : y' = y := List.inj_on_of_nodup_map hnd (List.mem_of_find?_eq_some hy') hy hkey
    simp only [atKey, hy', heq, Option.map_some, Option.getD_some]
  have hys : ys.map g = (ys.map key').map atKey := by
    rw [List.map_map]
    apply List.map_congr_left
    intro y hy
    exact (hat hy).symm
  have hxs : xs.map f = (xs.map key).map atKey := by
    rw [List.map_map]
    apply List.map_congr_left
    intro x hx
    obtain ⟨y, hy, hkey⟩ := List.mem_map.1 (hkeys.mem_iff.1 (List.mem_map_of_mem hx))
    rw [Function.comp_apply, ← hkey, hat hy]
    exact hfg x hx y hy hkey.symm
  rw [hxs, hys]
  exact (hkeys.map atKey).sum_eq

theorem mapM_eq_some_map {l : List α} {f : α → Option β} {g : α → β}
    (h : ∀ x ∈ l, f x = some (g x)) : l.mapM f = some (l.map g) := by
  induction l with
  | nil => rfl
  | cons x l ih =>
    rw [List.mapM_cons, h x (.head _), ih fun y hy => h y (.tail _ hy)]
    rfl

theorem getElem?_eq_some_getD {xs : List α} (x₀ : α) (h : i < xs.length) :
    xs[i]? = some (xs.getD i x₀) := by
  rw [List.getD_eq_getElem?_getD, List.getElem?_eq_getElem h, Option.getD_some]

theorem mapM_getElem? {xs : List α} {is : List Nat} (x₀ : α) (h : ∀ i ∈ is, i < xs.length) :
    is.mapM (fun i => xs[i]?) = some (is.map fun i => xs.getD i x₀) :=
  mapM_eq_some_map fun i hi => getElem?_eq_some_getD x₀ (h i hi)

theorem mapM_cons_eq_some {xs : List α} {f : α → Option β} (h : (x :: xs).mapM f = some ys) :
    ∃ y zs, f x = some y ∧ xs.mapM f = some zs ∧ ys = y :: zs := by
  rw [List.mapM_cons] at h
  cases hx : f x with
  | none => simp [hx] at h
  | some y =>
    cases hxs : xs.mapM f with
    | none => simp [hx, hxs] at h
    | some zs =>
      simp only [hx, hxs, Option.bind_eq_bind, Option.bind_some, Option.pure_def,
        Option.some.injEq] at h
      exact ⟨y, zs, rfl, rfl, h.symm⟩

/-- What goes item by item goes with the items that a condition keeps. -/
theorem mapM_filter {xs : List α} {f : α → Option β} {p : α → Bool} {q : β → Bool}
    (hpq : ∀ x y, f x = some y → q y = p x) (h : xs.mapM f = some ys) :
    (xs.filter p).mapM f = some (ys.filter q) := by
  induction xs generalizing ys with
  | nil =>
    cases h
    rfl
  | cons x xs ih =>
    obtain ⟨y, zs, hy, hzs, rfl⟩ := mapM_cons_eq_some h
    cases hp : p x with
    | false =>
      rw [List.filter_cons_of_neg (by simp [hp]),
        List.filter_cons_of_neg (by simp [hpq x y hy, hp])]
      exact ih hzs
    | true =>
      rw [List.filter_cons_of_pos hp, List.filter_cons_of_pos (by rw [hpq x y hy, hp]),
        List.mapM_cons, hy, ih hzs]
      rfl

theorem getLast?_of_mapM {xs : List α} {f : α → Option β} (h : xs.mapM f = some ys) :
    ys.getLast? = xs.getLast?.bind f := by
  induction xs generalizing ys with
  | nil =>
    cases h
    rfl
  | cons x xs ih =>
    obtain ⟨y, zs, hy, hzs, rfl⟩ := mapM_cons_eq_some h
    cases xs with
    | nil =>
      cases hzs
      exact hy.symm
    | cons x' xs =>
      obtain ⟨y', zs, -, -, rfl⟩ := mapM_cons_eq_some hzs
      rw [List.getLast?_cons_cons, List.getLast?_cons_cons]
      exact ih hzs

theorem length_of_mapM {xs : List α} {f : α → Option β} (h : xs.mapM f = some ys) :
    ys.length = xs.length := by
  induction xs generalizing ys with
  | nil =>
    rw [List.mapM_nil] at h
    cases h
    rfl
  | cons x xs ih =>
    obtain ⟨y, zs, _, hzs, rfl⟩ := mapM_cons_eq_some h
    rw [List.length_cons, List.length_cons, ih hzs]

theorem exists_mapM {l : List α} {f : α → Option β} (h : ∀ x ∈ l, ∃ y, f x = some y) :
    ∃ ys, l.mapM f = some ys := by
  induction l with
  | nil => exact ⟨[], rfl⟩
  | cons x l ih =>
    obtain ⟨y, hy⟩ := h x (.head _)
    obtain ⟨ys, hys⟩ := ih fun z hz => h z (.tail _ hz)
    refine ⟨y :: ys, ?_⟩
    rw [List.mapM_cons, hy, hys]
    rfl

theorem isSome_of_mapM {xs : List α} {f : α → Option β} (h : xs.mapM f = some ys) (hx : x ∈ xs) :
    ∃ y, f x = some y := by
  induction xs generalizing ys with
  | nil => cases hx
  | cons z xs ih =>
    obtain ⟨y, zs, hy, hzs, rfl⟩ := mapM_cons_eq_some h
    rcases List.mem_cons.1 hx with rfl | hx
    · exact ⟨y, hy⟩
    · exact ih hzs hx

theorem eq_map_of_mapM {xs : List α} {f : α → Option β} {g : α → β}
    (hfg : ∀ x y, f x = some y → y = g x) (h : xs.mapM f = some ys) : ys = xs.map g := by
  have hsome : ∀ x ∈ xs, f x = some (g x) := by
    intro x hx
    obtain ⟨y, hy⟩ := isSome_of_mapM h hx
    rw [hy, hfg x y hy]
  rw [mapM_eq_some_map hsome] at h
  exact (Option.some.inj h).symm

theorem exists_of_mem_mapM {xs : List α} {f : α → Option β} (h : xs.mapM f = some ys)
    (hy : y ∈ ys) : ∃ x ∈ xs, f x = some y := by
  induction xs generalizing ys with
  | nil =>
    cases h
    cases hy
  | cons x xs ih =>
    obtain ⟨z, zs, hz, hzs, rfl⟩ := mapM_cons_eq_some h
    rcases List.mem_cons.1 hy with rfl | hy
    · exact ⟨x, .head _, hz⟩
    · obtain ⟨x', hx', hfx⟩ := ih hzs hy
      exact ⟨x', .tail _ hx', hfx⟩

theorem mapM_eq_none {l : List α} {f : α → Option β} (hx : x ∈ l) (h : f x = none) :
    l.mapM f = none := by
  cases hl : l.mapM f with
  | none => rfl
  | some ys =>
    obtain ⟨y, hy⟩ := isSome_of_mapM hl hx
    rw [h] at hy
    cases hy

theorem lookup_cons_of_ne [BEq κ] [LawfulBEq κ] {k k' : κ} (h : k ≠ k') (v : β)
    (table : List (κ × β)) : ((k', v) :: table).lookup k = table.lookup k := by
  rw [List.lookup_cons, beq_false_of_ne h]

theorem lookup_map_of_injective [BEq κ] [LawfulBEq κ] {key : α → κ} {val : α → β} {xs : List α}
    (hinj : ∀ x y, key x = key y → x = y) (hx : x ∈ xs) :
    (xs.map fun y => (key y, val y)).lookup (key x) = some (val x) := by
  induction xs with
  | nil => cases hx
  | cons y xs ih =>
    rw [List.map_cons]
    by_cases he : key x = key y
    · rw [hinj x y he, List.lookup_cons_self]
    · have hne : x ≠ y := fun h => he (h ▸ rfl)
      rw [lookup_cons_of_ne he]
      exact ih ((List.mem_cons.1 hx).resolve_left hne)

theorem lookup_map_eq_none [BEq κ] [LawfulBEq κ] {key : α → κ} {val : α → β} {xs : List α}
    (h : ∀ y ∈ xs, key y ≠ k) : (xs.map fun y => (key y, val y)).lookup k = none := by
  induction xs with
  | nil => rfl
  | cons y xs ih =>
    rw [List.map_cons, lookup_cons_of_ne (h y (.head _)).symm]
    exact ih fun z hz => h z (.tail _ hz)

theorem lookup_mapM_eq_some [BEq κ] [LawfulBEq κ] {f : κ → Option β} {ks : List κ}
    (h : (ks.mapM fun k => (f k).map fun v => (k, v)) = some table)
    (hk : table.lookup k = some v) : f k = some v := by
  induction ks generalizing table with
  | nil =>
    cases h
    cases hk
  | cons k' ks ih =>
    obtain ⟨entry, rest, hentry, hrest, rfl⟩ := mapM_cons_eq_some h
    obtain ⟨w, hw, rfl⟩ := Option.map_eq_some_iff.1 hentry
    by_cases he : k = k'
    · subst he
      rw [List.lookup_cons_self] at hk
      rw [hw, hk]
    · rw [lookup_cons_of_ne he] at hk
      exact ih hrest hk

theorem lookup_of_mapM [BEq κ] [LawfulBEq κ] {f : κ → Option β} {ks : List κ}
    (h : (ks.mapM fun k => (f k).map fun v => (k, v)) = some table) (hk : k ∈ ks) :
    table.lookup k = f k := by
  induction ks generalizing table with
  | nil => cases hk
  | cons k' ks ih =>
    obtain ⟨entry, rest, hentry, hrest, rfl⟩ := mapM_cons_eq_some h
    obtain ⟨v, hv, rfl⟩ := Option.map_eq_some_iff.1 hentry
    by_cases he : k = k'
    · subst he
      rw [List.lookup_cons_self, hv]
    · rw [lookup_cons_of_ne he]
      exact ih hrest ((List.mem_cons.1 hk).resolve_left he)

theorem length_flatten_of_mapM {xss : List (List α)} {f : List α → Option (List β)}
    (hf : ∀ xs ys, f xs = some ys → ys.length = xs.length) (h : xss.mapM f = some yss) :
    yss.flatten.length = xss.flatten.length := by
  induction xss generalizing yss with
  | nil =>
    rw [List.mapM_nil] at h
    cases h
    rfl
  | cons xs xss ih =>
    obtain ⟨ys, zss, hys, hzss, rfl⟩ := mapM_cons_eq_some h
    simp only [List.flatten_cons, List.length_append, hf xs ys hys, ih hzss]

/-- Lists that every function reads alike are equal. -/
theorem eq_of_map_eq [Nontrivial β] {xs ys : List α} (h : ∀ f : α → β, xs.map f = ys.map f) :
    xs = ys := by
  classical
  obtain ⟨a, b, hab⟩ := exists_pair_ne β
  induction xs generalizing ys with
  | nil =>
    have hlen := congrArg List.length (h fun _ => a)
    rw [List.length_map, List.length_map, List.length_nil] at hlen
    exact (List.length_eq_zero_iff.1 hlen.symm).symm
  | cons x xs ih =>
    cases ys with
    | nil =>
      have hnil := h fun _ => a
      cases hnil
    | cons y ys =>
      have hhead : x = y := by
        by_contra hne
        have hcons := h fun z => if z = x then a else b
        rw [List.map_cons, List.map_cons, if_pos rfl, if_neg (Ne.symm hne)] at hcons
        exact hab (List.cons.inj hcons).1
      rw [hhead, ih fun f => (List.cons.inj (h f)).2]

theorem flatten_map_eq_iff {xs : List α} {f g : α → List β}
    (hlen : ∀ x ∈ xs, (f x).length = (g x).length) :
    (xs.map f).flatten = (xs.map g).flatten ↔ ∀ x ∈ xs, f x = g x := by
  induction xs with
  | nil => simp
  | cons x xs ih =>
    simp only [List.map_cons, List.flatten_cons, List.forall_mem_cons]
    rw [← ih fun y hy => hlen y (.tail _ hy)]
    constructor
    · intro h
      exact List.append_inj h (hlen x (.head _))
    · rintro ⟨hx, hxs⟩
      rw [hx, hxs]

/-- A run that goes on as long as each item passes a test. -/
theorem foldlM_guard {step : σ → α → Option σ} {p : α → Prop} {f : σ → α → σ}
    (hpos : ∀ s x, p x → step s x = some (f s x)) (hneg : ∀ s x, ¬ p x → step s x = none)
    {xs : List α} : xs.foldlM step s = some s' ↔ (∀ x ∈ xs, p x) ∧ s' = xs.foldl f s := by
  induction xs generalizing s with
  | nil => simp [eq_comm]
  | cons x xs ih =>
    rw [List.foldlM_cons, List.foldl_cons, List.forall_mem_cons]
    by_cases hx : p x
    · rw [hpos s x hx, Option.bind_eq_bind, Option.bind_some, ih]
      simp only [hx, true_and]
    · rw [hneg s x hx]
      exact iff_of_false (by simp) fun h => hx h.1.1

section FilterMap
variable {f : α → Option α} {p : α → Bool} {xs : List α}

theorem map_filterMap_sublist {key : α → κ} (h : ∀ x ∈ xs, ∀ y, f x = some y → key y = key x) :
    ((xs.filterMap f).map key).Sublist (xs.map key) := by
  induction xs with
  | nil => exact .slnil
  | cons x xs ih =>
    have hrest := ih fun y hy => h y (.tail _ hy)
    cases hx : f x with
    | none =>
      rw [List.filterMap_cons_none hx, List.map_cons]
      exact hrest.cons _
    | some y =>
      rw [List.filterMap_cons_some hx, List.map_cons, List.map_cons, h x (.head _) y hx]
      exact hrest.cons_cons _

/-- Items that pass a test are left as they are, and no other item comes to pass it. -/
theorem filter_filterMap_eq (hself : ∀ x ∈ xs, p x = true → f x = some x)
    (hother : ∀ x ∈ xs, ∀ y, f x = some y → p y = true → p x = true) :
    (xs.filterMap f).filter p = xs.filter p := by
  induction xs with
  | nil => rfl
  | cons x xs ih =>
    have hrest := ih (fun y hy => hself y (.tail _ hy)) fun y hy => hother y (.tail _ hy)
    by_cases hp : p x = true
    · rw [List.filterMap_cons_some (hself x (.head _) hp), List.filter_cons_of_pos hp,
        List.filter_cons_of_pos hp, hrest]
    · rw [List.filter_cons_of_neg hp]
      cases hx : f x with
      | none => rw [List.filterMap_cons_none hx, hrest]
      | some y =>
        have hy : p y ≠ true := fun hy => hp (hother x (.head _) y hx hy)
        rw [List.filterMap_cons_some hx, List.filter_cons_of_neg hy, hrest]

theorem filter_take_eq (hnd : xs.Nodup) (h : ∀ x ∈ xs, p x = true → x ∈ xs.take n) :
    (xs.take n).filter p = xs.filter p := by
  have hdrop : (xs.drop n).filter p = [] := by
    rw [List.filter_eq_nil_iff]
    intro x hx hp
    have htake := h x (List.mem_of_mem_drop hx) hp
    exact List.disjoint_take_drop hnd (Nat.le_refl n) htake hx
  have hsplit := congrArg (List.filter p) (List.take_append_drop n xs)
  rwa [List.filter_append, hdrop, List.append_nil] at hsplit

end FilterMap

/-- Of the places of the items with a property, the first `m` are those before which fewer than `m`
items have it. -/
theorem mem_take_places (xs : List α) (p : α → Bool) (start : Nat) :
    i ∈ (((xs.zipIdx start).filter (p ·.1)).map (·.2)).take m ↔
      ∃ k x, i = start + k ∧ xs[k]? = some x ∧ p x = true ∧ (xs.take k).countP p < m := by
  induction xs generalizing start m with
  | nil => simp
  | cons x xs ih =>
    rw [List.zipIdx_cons]
    by_cases hx : p x = true
    · rw [List.filter_cons_of_pos (by exact hx), List.map_cons]
      cases m with
      | zero => simp
      | succ m =>
        rw [List.take_succ_cons, List.mem_cons, ih]
        constructor
        · rintro (rfl | ⟨k, y, rfl, hy, hp, hlt⟩)
          · exact ⟨0, x, rfl, rfl, hx, Nat.succ_pos m⟩
          · refine ⟨k + 1, y, by omega, hy, hp, ?_⟩
            rw [List.take_succ_cons, List.countP_cons_of_pos hx]
            omega
        · rintro ⟨k, y, rfl, hy, hp, hlt⟩
          cases k with
          | zero => exact .inl rfl
          | succ k =>
            rw [List.take_succ_cons, List.countP_cons_of_pos hx] at hlt
            exact .inr ⟨k, y, by omega, hy, hp, by omega⟩
    · rw [List.filter_cons_of_neg (by exact hx), ih]
      constructor
      · rintro ⟨k, y, rfl, hy, hp, hlt⟩
        refine ⟨k + 1, y, by omega, hy, hp, ?_⟩
        rwa [List.take_succ_cons, List.countP_cons_of_neg hx]
      · rintro ⟨k, y, rfl, hy, hp, hlt⟩
        cases k with
        | zero =>
          cases hy
          exact absurd hp hx
        | succ k =>
          rw [List.take_succ_cons, List.countP_cons_of_neg hx] at hlt
          exact ⟨k, y, by omega, hy, hp, hlt⟩

/-- What a test holds of stands in front. -/
theorem dropWhile_eq_filter {l : List α} {p : α → Bool}
    (h : l.Pairwise fun a b => p b = true → p a = true) :
    l.dropWhile p = l.filter fun a => !p a := by
  induction l with
  | nil => rfl
  | cons a l ih =>
    obtain ⟨hfirst, hrest⟩ := List.pairwise_cons.1 h
    by_cases ha : p a = true
    · rw [List.dropWhile_cons_of_pos ha, ih hrest, List.filter_cons_of_neg]
      rw [ha]
      exact Bool.false_ne_true
    · have hkept : ∀ b ∈ a :: l, (!p b) = true := by
        rw [List.forall_mem_cons, Bool.not_eq_true']
        exact ⟨eq_false_of_ne_true ha, fun b hb => by
          rw [Bool.not_eq_true']
          exact eq_false_of_ne_true fun hpb => ha (hfirst b hb hpb)⟩
      rw [List.dropWhile_cons_of_neg ha, List.filter_eq_self.2 hkept]

theorem mem_take_of_lt {l : List Nat} (hl : l.Pairwise (· < ·)) (hj : j ∈ l.take k) (hi : i ∈ l)
    (hlt : i < j) : i ∈ l.take k := by
  induction l generalizing k with
  | nil => exact (List.not_mem_nil hi).elim
  | cons a l ih =>
    obtain ⟨hfirst, hrest⟩ := List.pairwise_cons.1 hl
    cases k with
    | zero => exact (List.not_mem_nil hj).elim
    | succ k =>
      rw [List.take_succ_cons, List.mem_cons] at hj ⊢
      rcases List.mem_cons.1 hi with hia | hil
      · exact .inl hia
      · rcases hj with hja | hjl
        · exact (Nat.lt_asymm hlt (hja ▸ hfirst i hil)).elim
        · exact .inr (ih hrest hjl hil)

/-- Two disjoint parts of a list are together the part of both. -/
theorem filter_append_filter_perm {p q : α → Bool} (h : ∀ a, p a → ¬ q a) (l : List α) :
    (l.filter p ++ l.filter q).Perm (l.filter fun a => p a || q a) := by
  have hsplit := List.filter_append_perm p (l.filter fun a => p a || q a)
  have hp : (l.filter fun a => p a || q a).filter p = l.filter p := by
    rw [List.filter_filter]
    apply List.filter_congr
    intro a _
    cases hpa : p a <;> simp
  have hq : (l.filter fun a => p a || q a).filter (fun a => !p a) = l.filter q := by
    rw [List.filter_filter]
    apply List.filter_congr
    intro a _
    have hdisj := h a
    cases hpa : p a <;> simp_all
  rw [hp, hq] at hsplit
  exact hsplit

/-- The maximum that a loop finds is its start or an element. -/
theorem foldl_max_spec [LinearOrder β] {f : α → β} (l : List α) (m : β) :
    m ≤ l.foldl (fun m x => max m (f x)) m ∧ (∀ x ∈ l, f x ≤ l.foldl (fun m x => max m (f x)) m) ∧
      (l.foldl (fun m x => max m (f x)) m = m ∨
        ∃ x ∈ l, l.foldl (fun m x => max m (f x)) m = f x) := by
  induction l generalizing m with
  | nil => exact ⟨le_refl m, fun x hx => absurd hx List.not_mem_nil, .inl rfl⟩
  | cons x l ih =>
    obtain ⟨hle, hall, heq⟩ := ih (max m (f x))
    rw [List.foldl_cons]
    refine ⟨le_trans (le_max_left _ _) hle,
      List.forall_mem_cons.2 ⟨le_trans (le_max_right _ _) hle, hall⟩, ?_⟩
    rcases heq with heq | ⟨y, hy, heq⟩
    · rw [heq]
      rcases max_choice m (f x) with hm | hx
      · exact .inl hm
      · exact .inr ⟨x, .head _, hx⟩
    · exact .inr ⟨y, .tail _ hy, heq⟩

section Updates
variable {α β γ : Type*} [DecidableEq α] {xs : List (α × γ)} {g : β → γ → β} {f : α → β}

theorem foldl_update_other (h : ∀ x ∈ xs, x.1 ≠ y) :
    xs.foldl (fun f x => Function.update f x.1 (g (f x.1) x.2)) f y = f y := by
  induction xs generalizing f with
  | nil => rfl
  | cons x xs ih =>
    rw [List.foldl_cons, ih fun z hz => h z (List.mem_cons_of_mem _ hz)]
    exact Function.update_of_ne (h x List.mem_cons_self).symm _ _

theorem foldl_update_place (hnd : (xs.map Prod.fst).Nodup) (hx : x ∈ xs) :
    xs.foldl (fun f x => Function.update f x.1 (g (f x.1) x.2)) f x.1 = g (f x.1) x.2 := by
  induction xs generalizing f with
  | nil => cases hx
  | cons z xs ih =>
    rw [List.map_cons, List.nodup_cons] at hnd
    rw [List.foldl_cons]
    rcases List.mem_cons.1 hx with rfl | hx
    · rw [foldl_update_other fun w hw he => hnd.1 (List.mem_map.2 ⟨w, hw, he⟩),
        Function.update_self]
    · rw [ih hnd.2 hx, Function.update_of_ne]
      exact fun he => hnd.1 (List.mem_map.2 ⟨x, hx, he⟩)

end Updates

end ActQuant.Lib
