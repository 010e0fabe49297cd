import ActQuant.Lib.Dict
import ActQuant.Lib.Lists

namespace ActQuant.Lib

variable {α β γ κ : Type} [DecidableEq κ]

/-- A loop whose values are computed once for each key and then taken from the cache. -/
def memoMap (key : α → κ) (f : α → β) (visit : α → β → γ) : Dict κ β → List α → List γ
  | _, [] => []
  | cache, x :: xs =>
    match cache.lookup (key x) with
    | some v => visit x v :: memoMap key f visit cache xs
    | none => visit x (f x) :: memoMap key f visit (cache.set (key x) (f x)) xs

variable {key : α → κ} {f : α → β} {visit : α → β → γ}

/-- What is stored is right, and items of one key that is not stored have one value. -/
structure MemoOk (key : α → κ) (f : α → β) (cache : Dict κ β) (xs : List α) : Prop where
  stored : ∀ x ∈ xs, ∀ v, cache.lookup (key x) = some v → v = f x
  later : ∀ x ∈ xs, ∀ y ∈ xs, cache.lookup (key x) = none → key x = key y → f x = f y

theorem memoOk_cons_of_stored (hx : cache.lookup (key x) = some v) :
    MemoOk key f cache (x :: xs) ↔ v = f x ∧ MemoOk key f cache xs := by
  constructor
  · intro h
    refine ⟨h.stored x (.head _) v hx, fun y hy => h.stored y (.tail _ hy), ?_⟩
    exact fun y hy z hz => h.later y (.tail _ hy) z (.tail _ hz)
  · rintro ⟨rfl, h⟩
    constructor
    case stored =>
      intro y hy w hw
      rcases List.mem_cons.1 hy with rfl | hy
      · exact Option.some.inj (hw.symm.trans hx)
      · exact h.stored y hy w hw
    case later =>
      intro y hy z hz hnone hkey
      rcases List.mem_cons.1 hy with rfl | hy
      · rw [hx] at hnone
        cases hnone
      · rcases List.mem_cons.1 hz with rfl | hz
        · rw [hkey, hx] at hnone
          cases hnone
        · exact h.later y hy z hz hnone hkey

/-- Storing the value of an item leaves the others of its key to be right themselves. -/
theorem memoOk_cons_of_new (hx : cache.lookup (key x) = none) :
    MemoOk key f cache (x :: xs) ↔ MemoOk key f (cache.set (key x) (f x)) xs := by
  constructor
  · intro h
    constructor
    case stored =>
      intro y hy v hv
      rw [Dict.lookup_set] at hv
      by_cases hkey : key y = key x
      · rw [if_pos hkey] at hv
        cases hv
        exact h.later x (.head _) y (.tail _ hy) hx hkey.symm
      · rw [if_neg hkey] at hv
        exact h.stored y (.tail _ hy) v hv
    case later =>
      intro y hy z hz hnone hkey
      rw [Dict.lookup_set] at hnone
      by_cases hyx : key y = key x
      · rw [if_pos hyx] at hnone
        cases hnone
      · rw [if_neg hyx] at hnone
        exact h.later y (.tail _ hy) z (.tail _ hz) hnone hkey
  · intro h
    have hfirst (y : α) (hy : y ∈ x :: xs) (hkey : key y = key x) : f y = f x := by
      rcases List.mem_cons.1 hy with rfl | hy
      · rfl
      · have hlookup : (cache.set (key x) (f x)).lookup (key y) = some (f x) := by
          rw [Dict.lookup_set, if_pos hkey]
        exact (h.stored y hy (f x) hlookup).symm
    have hothers (y : α) (hkey : key y ≠ key x) :
        (cache.set (key x) (f x)).lookup (key y) = cache.lookup (key y) := by
      rw [Dict.lookup_set, if_neg hkey]
    constructor
    case stored =>
      intro y hy w hw
      have hyx : key y ≠ key x := by
        intro hkey
        rw [hkey, hx] at hw
        cases hw
      have hy' := (List.mem_cons.1 hy).resolve_left fun h => hyx (h ▸ rfl)
      exact h.stored y hy' w ((hothers y hyx).trans hw)
    case later =>
      intro y hy z hz hnone hkey
      by_cases hyx : key y = key x
      · rw [hfirst y hy hyx, hfirst z hz (hkey ▸ hyx)]
      · have hzx : key z ≠ key x := hkey ▸ hyx
        have hy' := (List.mem_cons.1 hy).resolve_left fun h => hyx (h ▸ rfl)
        have hz' := (List.mem_cons.1 hz).resolve_left fun h => hzx (h ▸ rfl)
        exact h.later y hy' z hz' ((hothers y hyx).trans hnone) hkey

/-- From any cache on: what is stored is right, and so is what will be. -/
theorem memoMap_eq_iff_from (hv : ∀ x, Function.Injective (visit x)) (cache : Dict κ β)
    (xs : List α) :
    memoMap key f visit cache xs = xs.map (fun x => visit x (f x)) ↔ MemoOk key f cache xs := by
  induction xs generalizing cache with
  | nil =>
    refine iff_of_true rfl ⟨fun x hx => ?_, fun x hx => ?_⟩
    · cases hx
    · cases hx
  | cons x xs ih =>
    cases hx : cache.lookup (key x) with
    | some v =>
      rw [memoOk_cons_of_stored hx, ← ih]
      simp only [memoMap, hx, List.map_cons, List.cons.injEq, (hv x).eq_iff]
    | none =>
      rw [memoOk_cons_of_new hx, ← ih]
      simp only [memoMap, hx, List.map_cons, List.cons.injEq, true_and]

/-- The memoised loop is the plain one exactly when items of one key have one value. -/
theorem memoMap_eq_iff (hv : ∀ x, Function.Injective (visit x)) (xs : List α) :
    memoMap key f visit [] xs = xs.map (fun x => visit x (f x)) ↔
      ∀ x ∈ xs, ∀ y ∈ xs, key x = key y → f x = f y := by
  rw [memoMap_eq_iff_from hv]
  constructor
  · intro h x hx y hy hkey
    exact h.later x hx y hy rfl hkey
  · intro h
    refine ⟨fun x _ v hv => ?_, fun x hx y hy _ => h x hx y hy⟩
    cases hv

end ActQuant.Lib
